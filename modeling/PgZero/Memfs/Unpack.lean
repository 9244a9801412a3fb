import PgZero.Lib.PathNames
import PgZero.Memfs.Append
import PgZero.Memfs.Calls

/-!
# One entry of an archive

An entry whose directory exists, and whose own name is still free, adds one node. On the way to it
`mkdirAll` meets only directories that exist already, and passes over the errors.

* `Adds`, **`addEntry_dir`**, **`addEntry_file`**: what one turn of `AddTar` adds.
-/

set_option autoImplicit false

namespace PgZero.Memfs

open Lib GoPath List

theorem ValidName.plain {k : Str} (h : ValidName k) : Plain k :=
  ⟨h.ne_nil, h.slash, h.ne_dot, h.ne_dotdot⟩

/-! ### Names -/

/-- The node at a list of names, from a directory on. -/
def Heap.find (h : Heap) : NodeId → List Str → Option NodeId
  | d, [] => some d
  | d, p :: ps => if h.isDir d then (h.entry d p).bind fun c => h.find c ps else none

section

variable {h : Heap} {r d n : NodeId} {ps : List Str} {p : Str}

theorem Heap.find_append (qs : List Str) :
    h.find d (ps ++ qs) = (h.find d ps).bind fun n => h.find n qs := by
  induction ps generalizing d with
  | nil => rfl
  | cons p ps ih =>
    rw [cons_append, Heap.find, Heap.find]
    split_ifs
    · cases h.entry d p with
      | none => rfl
      | some c => exact ih
    · rfl

theorem Heap.find_snoc (hf : h.find r ps = some d) (hd : h.isDir d = true) :
    h.find r (ps ++ [p]) = h.entry d p := by
  rw [Heap.find_append, hf, Option.bind_some, Heap.find, if_pos hd]
  cases h.entry d p with
  | none => rfl
  | some c => rfl

theorem Heap.walkStep_found (hp : Plain p) (hd : h.isDir d = true) (he : h.entry d p = some n) :
    h.walkStep r (some d) p = .ok (some n) := by
  unfold Heap.walkStep
  rw [if_neg (by simp [hp.ne_nil, hp.ne_dot]), if_neg hp.ne_dotdot]
  simp only [hd, he, Bool.not_true, Bool.false_eq_true, if_false]

theorem Heap.walkStep_missing (hp : Plain p) (hd : h.isDir d = true) (he : h.entry d p = none) :
    h.walkStep r (some d) p = .error (.sys .ENOENT) := by
  unfold Heap.walkStep
  rw [if_neg (by simp [hp.ne_nil, hp.ne_dot]), if_neg hp.ne_dotdot]
  simp only [hd, he, Bool.not_true, Bool.false_eq_true, if_false]

theorem Heap.walkStep_file (hp : Plain p) (hd : h.isDir d = false) :
    h.walkStep r (some d) p = .error (.sys .ENOTDIR) := by
  unfold Heap.walkStep
  rw [if_neg (by simp [hp.ne_nil, hp.ne_dot]), if_neg hp.ne_dotdot]
  simp only [hd, Bool.not_false, if_true]

theorem Heap.walk_found (hp : ∀ p ∈ ps, Plain p) (hf : h.find d ps = some n) :
    h.walk r (some d) ps = .ok (some n) := by
  induction ps generalizing d with
  | nil =>
    obtain rfl := Option.some.inj hf
    rfl
  | cons p ps ih =>
    obtain ⟨hd, hf⟩ := Option.ite_none_right_eq_some.mp hf
    obtain ⟨c, hc, hf⟩ := Option.bind_eq_some_iff.mp hf
    rw [Heap.walk, Heap.walkStep_found (hp p mem_cons_self) hd hc]
    exact ih (fun q hq => hp q (mem_cons_of_mem p hq)) hf

theorem Heap.walk_missing (hp : ∀ p ∈ ps, Plain p) (hf : h.find d ps = none) :
    ∃ e, h.walk r (some d) ps = .error (.sys e) := by
  induction ps generalizing d with
  | nil => cases hf
  | cons p ps ih =>
    have hp0 := hp p mem_cons_self
    rw [Heap.walk]
    by_cases hd : h.isDir d = true
    · rw [Heap.find, if_pos hd] at hf
      cases hc : h.entry d p with
      | none => exact ⟨_, by rw [Heap.walkStep_missing hp0 hd hc]⟩
      | some c =>
        rw [hc] at hf
        rw [Heap.walkStep_found hp0 hd hc]
        exact ih (fun q hq => hp q (mem_cons_of_mem p hq)) hf
    · exact ⟨_, by rw [Heap.walkStep_file hp0 (by simpa using hd)]⟩

theorem components_spell (hp : ∀ q ∈ ps, Plain q) (h : Plain p) :
    Heap.components (spell (ps ++ [p])) true = .ok (ps, p) := by
  have hne : ps ++ [p] ≠ [] := append_ne_nil_of_right_ne_nil ps (cons_ne_nil p [])
  have hdrop : Heap.dropEmpty (p :: ps.reverse) = p :: ps.reverse := by
    cases ps.reverse with
    | nil => rfl
    | cons q qs => exact if_neg h.ne_nil
  simp only [Heap.components, if_true, split_plain hne (plain_snoc hp h), reverse_append,
    reverse_singleton, singleton_append, hdrop, reverse_reverse]
  exact if_neg (by simp [h.ne_nil, h.ne_dot, h.ne_dotdot])

theorem resolve_parent (hp : ∀ q ∈ ps, Plain q) (hp' : Plain p) (hf : h.find r ps = some d)
    (hd : h.isDir d = true) : h.resolve r r (spell (ps ++ [p])) true = .ok (d, p) := by
  have hne : ps ++ [p] ≠ [] := append_ne_nil_of_right_ne_nil ps (cons_ne_nil p [])
  simp [Heap.resolve, isAbs_spell hne (plain_snoc hp hp'), components_spell hp hp',
    Heap.walk_found hp hf, hd]

theorem resolve_found (hps : ps ≠ []) (hp : ∀ q ∈ ps, Plain q) (hf : h.find r ps = some n) :
    h.resolve r r (spell ps) false = .ok (n, []) := by
  simp [Heap.resolve, isAbs_spell hps hp, Heap.components, split_plain hps hp,
    Heap.walk_found hp hf, endsInSlash_spell hps hp]

theorem resolve_missing (hps : ps ≠ []) (hp : ∀ q ∈ ps, Plain q) (hf : h.find r ps = none) :
    ∃ e, h.resolve r r (spell ps) false = .error (.sys e) := by
  obtain ⟨e, hw⟩ := h.walk_missing (r := r) hp hf
  exact ⟨e, by simp [Heap.resolve, isAbs_spell hps hp, Heap.components, split_plain hps hp, hw]⟩

end

/-! ### Directories on the way -/

section

variable {h : Heap} {fs : FS} {d n : NodeId} {ps : List Str} {p : Str} (perm : FileMode) (now : ℤ)

theorem mkdirAt_exists (hp : ∀ q ∈ ps, Plain q) (hp' : Plain p)
    (hf : h.find fs.root ps = some d) (hd : h.isDir d = true) (he : h.entry d p = some n) :
    fs.rootFile.mkdirAt h (spell (ps ++ [p])) perm now =
      (h, .error (pathErr "mkdir" (spell (ps ++ [p])) .EEXIST)) := by
  have hres : h.resolve fs.rootFile.fs.root fs.rootFile.node (spell (ps ++ [p])) true =
    .ok (d, p) := resolve_parent hp hp' hf hd
  simp only [File.mkdirAt, hres, he]

theorem mkdirAt_new (hp : ∀ q ∈ ps, Plain q) (hp' : Plain p)
    (hf : h.find fs.root ps = some d) (hd : h.isDir d = true) (he : h.entry d p = none) :
    fs.rootFile.mkdirAt h (spell (ps ++ [p])) perm now =
      (((h.newDir (modeDir ||| perm.perm ||| 0o700) d now).setEntry d p h.next).touch d now,
        .ok ()) := by
  have hres : h.resolve fs.rootFile.fs.root fs.rootFile.node (spell (ps ++ [p])) true =
    .ok (d, p) := resolve_parent hp hp' hf hd
  simp only [File.mkdirAt, hres, he]

theorem mkdirLoop_found (hp : ∀ q ∈ ps, Plain q) (pre : List Str) (hpre : ∀ q ∈ pre, Plain q)
    (hf : h.find fs.root pre = some d) (hn : h.find d ps = some n) (qs : List Str) :
    fs.mkdirLoop perm now h (spell pre) (ps ++ qs) =
      fs.mkdirLoop perm now h (spell (pre ++ ps)) qs := by
  induction ps generalizing pre d with
  | nil => rw [append_nil, nil_append]
  | cons p ps ih =>
    have hp0 := hp p mem_cons_self
    obtain ⟨hd, hn⟩ := Option.ite_none_right_eq_some.mp hn
    obtain ⟨c, hc, hn⟩ := Option.bind_eq_some_iff.mp hn
    rw [cons_append, FS.mkdirLoop, join_spell hpre hp0,
      mkdirAt_exists perm now hpre hp0 hf hd hc]
    have hnext := ih (fun q hq => hp q (mem_cons_of_mem p hq)) _ (plain_snoc hpre hp0)
      ((Heap.find_snoc hf hd).trans hc) hn
    rw [append_assoc, singleton_append] at hnext
    exact hnext

theorem mkdirAll_found (hps : ps ≠ []) (hp : ∀ q ∈ ps, Plain q)
    (hf : h.find fs.root ps = some d) : fs.mkdirAll h (spell ps) perm now = (h, .ok ()) := by
  have hloop : fs.mkdirLoop perm now h (spell []) (ps ++ []) = _ :=
    mkdirLoop_found perm now hp [] nofun rfl hf []
  rw [append_nil] at hloop
  rw [FS.mkdirAll, split_plain hps hp]
  exact hloop

theorem mkdirAll_new (hp : ∀ q ∈ ps, Plain q) (hp' : Plain p) (hf : h.find fs.root ps = some d)
    (hd : h.isDir d = true) (he : h.entry d p = none) :
    fs.mkdirAll h (spell (ps ++ [p])) perm now =
      (((h.newDir (modeDir ||| perm.perm ||| 0o700) d now).setEntry d p h.next).touch d now,
        .ok ()) := by
  have hne : ps ++ [p] ≠ [] := append_ne_nil_of_right_ne_nil ps (cons_ne_nil p [])
  have hloop : fs.mkdirLoop perm now h (spell []) (ps ++ [p]) = _ :=
    mkdirLoop_found perm now hp [] nofun rfl hf [p]
  rw [FS.mkdirAll, split_plain hne (plain_snoc hp hp')]
  refine hloop.trans ?_
  rw [nil_append, FS.mkdirLoop, join_spell hp hp', mkdirAt_new perm now hp hp' hf hd he]
  rfl

end

/-! ### Content -/

theorem Heap.modify_modify (h : Heap) (i : NodeId) (n n' : Node) :
    ((h.modify i fun _ => n).modify i fun _ => n') = h.modify i fun _ => n' := by
  simp only [Heap.modify, Function.update_idem]

section

variable {f : File} (now : ℤ)

theorem File.write_end {n : Node} (hn : n.mode.isDir = false) (hw : f.writable = true)
    (ha : f.flag.append = false) (hoff : f.offset = n.data.len) (b : List UInt8)
    (hlt : n.data.len + b.length < 2 ^ 63) :
    ∃ n', f.write n b now = some (n', { f with offset := n'.data.len }, b.length, none) ∧
      SameNode n n' ∧ n'.data.toList = n.data.toList ++ b := by
  have hpos : f.writePos n = n.data.len := by rw [File.writePos, ha, ← hoff]; rfl
  have hlen := n.data.length_toList
  -- the content is as long as needed, with the old one at its front
  obtain ⟨data, hdata, hdl, htake⟩ : ∃ data : Slice UInt8,
      (if (n.data.len : ℤ) < n.data.len + b.length then
        grow n.data ((n.data.len : ℤ) + b.length).toNat else n.data) = data ∧
      data.len = n.data.len + b.length ∧ data.toList.take n.data.len = n.data.toList := by
    refine ⟨_, rfl, ?_⟩
    have hstop : ((n.data.len : ℤ) + b.length).toNat = n.data.len + b.length := by omega
    rw [hstop]
    split_ifs with hg
    · refine ⟨len_grow, ?_⟩
      rw [toList_grow (by omega), Ref.padTo, ← hlen, take_left]
    · exact ⟨by omega, by rw [← hlen, take_length]⟩
  have hcopy := Slice.toList_copyAt data hdl.ge
  have hend : data.toList.drop (n.data.len + b.length) = [] := by
    rw [← hdl, ← data.length_toList, drop_length]
  rw [htake, hend, append_nil] at hcopy
  have hnew : (data.copyAt n.data.len b).len = n.data.len + b.length := by
    rw [← Slice.length_toList, hcopy, length_append, hlen]
  refine ⟨{ n with data := data.copyAt n.data.len b, modTime := now }, ?_, ⟨rfl, rfl, rfl⟩, hcopy⟩
  have hwrap : wrap 64 ((n.data.len : ℤ) + b.length) = n.data.len + b.length :=
    wrap64_eq (by omega) (by omega)
  have hwrite : f.writeAt n b n.data.len now =
      some ({ n with data := data.copyAt n.data.len b, modTime := now }, b.length, none) := by
    unfold File.writeAt
    rw [hn, hw, if_neg (by simp), if_neg (by simp), if_neg (by omega)]
    dsimp only
    rw [hwrap, hdata, if_neg (by omega), Int.toNat_natCast]
  rw [File.write, hpos, hwrite, Option.map_some, hwrap]
  simp only [hnew, Nat.cast_add]

theorem copyBody_appends {h : Heap} (hn : h.isDir f.node = false) (hw : f.writable = true)
    (ha : f.flag.append = false) (hoff : f.offset = (h.node f.node).data.len)
    (bs : List (List UInt8)) (hlt : (h.node f.node).data.len + bs.flatten.length < 2 ^ 63) :
    ∃ n, h.copyBody now f bs = (h.modify f.node fun _ => n, none) ∧ SameNode (h.node f.node) n ∧
      n.data.toList = (h.node f.node).data.toList ++ bs.flatten := by
  induction bs generalizing h f with
  | nil =>
    refine ⟨h.node f.node, ?_, ⟨rfl, rfl, rfl⟩, (append_nil _).symm⟩
    rw [Heap.modify_node]
    rfl
  | cons b bs ih =>
    rw [flatten_cons, length_append] at hlt
    obtain ⟨n, hwrite, hs, hd⟩ := File.write_end now hn hw ha hoff b (by omega)
    have hlen : n.data.len = (h.node f.node).data.len + b.length := by
      rw [← n.data.length_toList, hd, length_append, Slice.length_toList]
    have hnode : (h.modify f.node fun _ => n).node f.node = n := by
      rw [Heap.node_modify, if_pos rfl]
    obtain ⟨n', hcopy, hs', hd'⟩ := ih (h := h.modify f.node fun _ => n)
      (f := { f with offset := n.data.len })
      (by rw [Heap.isDir, hnode, hs.mode]; exact hn) hw ha (by rw [hnode])
      (by rw [hnode, hlen]; omega)
    rw [hnode] at hs' hd'
    refine ⟨n', ?_, ⟨hs'.mode.trans hs.mode, hs'.entries.trans hs.entries,
      hs'.parent.trans hs.parent⟩, ?_⟩
    · rw [Heap.copyBody, hwrite]
      dsimp only
      rw [hcopy, Heap.modify_modify]
    · rw [hd', hd, append_assoc, flatten_cons]

end

/-! ### Entries of the archive -/

/-- The heap `h'` has one node more than `h`, with the name `k` in the directory `d`. -/
structure Adds (h h' : Heap) (d : NodeId) (k : Str) (n : Node) : Prop where
  next : h'.next = h.next + 1
  new : h'.node h.next = n
  old : ∀ i, i ≠ d → i ≠ h.next → h'.node i = h.node i
  mode : (h'.node d).mode = (h.node d).mode
  entry : ∀ k', h'.entry d k' = if k' = k then some h.next else h.entry d k'

section

variable {h h' : Heap} {d : NodeId} {k : Str} {n : Node}

theorem adds_child (hd : d ≠ h.next) (k : Str) (n : Node) (now : ℤ) :
    Adds h (((h.alloc n).setEntry d k h.next).touch d now) d k n := by
  have hs := Heap.sameTree_touch ((h.alloc n).setEntry d k h.next) d now
  refine ⟨rfl, ?_, fun i hi hi' => ?_, ?_, fun k' => ?_⟩
  · simp only [Heap.touch, Heap.setEntry, Heap.node_modify, if_neg hd.symm, Heap.node_alloc, if_pos]
  · simp only [Heap.touch, Heap.setEntry, Heap.node_modify, if_neg hi, Heap.node_alloc, if_neg hi']
  · simp only [Heap.touch, Heap.setEntry, Heap.node_modify, if_pos, Heap.node_alloc, if_neg hd]
  · rw [hs.entry, Heap.entry_setEntry]
    have hold : (h.alloc n).entry d k' = h.entry d k' := by
      rw [Heap.entry, Heap.node_alloc, if_neg hd, Heap.entry]
    simp [hold]

theorem Adds.modify (ha : Adds h h' d k n) (hd : d ≠ h.next) (f : Node → Node) :
    Adds h (h'.modify h.next f) d k (f n) := by
  refine ⟨ha.next, ?_, fun i hi hi' => ?_, ?_, fun k' => ?_⟩
  · rw [Heap.node_modify, if_pos rfl, ha.new]
  · rw [Heap.node_modify, if_neg hi', ha.old i hi hi']
  · rw [Heap.node_modify, if_neg hd, ha.mode]
  · rw [Heap.entry, Heap.node_modify, if_neg hd]
    exact ha.entry k'

variable {fs : FS} {ps : List Str} {p : Str} {e : TarEntry}

theorem target_file (hps : ps ≠ []) (hp : ∀ q ∈ ps, Plain q) (he : e.name = spell ps) :
    e.target = spell ps := by
  have hsplit := (split_plain hps hp).trans (append_nil ps).symm
  rw [TarEntry.target, he, trimStart_of_split hps hp hsplit, clean_spell hps hp,
    trimEnd_spell hps hp]

theorem target_dir (hps : ps ≠ []) (hp : ∀ q ∈ ps, Plain q) (he : e.name = spell ps ++ [slash]) :
    e.target = spell ps := by
  have hsplit : split (spell ps ++ [slash]) = ps ++ [[]] := by
    rw [split_append_slash, split_plain hps hp]
  rw [TarEntry.target, he, trimStart_of_split hps hp hsplit, clean_spell_slash hps hp,
    trimEnd_spell hps hp]

theorem target_ne (hps : ps ≠ []) (hp : ∀ q ∈ ps, Plain q) (he : e.target = spell ps) :
    ¬ (e.target = dot ∨ e.target = []) := by
  rw [he]
  rintro (h1 | h1)
  · exact spell_ne_dot hps hp h1
  · exact spell_ne_nil hps hp h1

theorem addEntry_dir (hp : ∀ q ∈ ps, Plain q) (hp' : Plain p) (hf : h.find fs.root ps = some d)
    (hd : h.isDir d = true) (hlt : d < h.next) (hfree : h.entry d p = none)
    (hname : e.name = spell (ps ++ [p]) ++ [slash]) (htype : e.typeflag = .typeDir) (now : ℤ) :
    ∃ h', fs.addEntry h e now = (h', none) ∧
      Adds h h' d p ⟨modeDir ||| e.mode.perm ||| 0o700, .nil, now, ∅, some d⟩ := by
  have hne : ps ++ [p] ≠ [] := append_ne_nil_of_right_ne_nil ps (cons_ne_nil p [])
  have htarget := target_dir hne (plain_snoc hp hp') hname
  refine ⟨_, ?_, adds_child hlt.ne p _ now⟩
  rw [FS.addEntry, if_neg (target_ne hne (plain_snoc hp hp') htarget), htype]
  dsimp only
  rw [htarget, mkdirAll_new e.mode now hp hp' hf hd hfree]
  rfl

theorem openAt_new (hp : ∀ q ∈ ps, Plain q) (hp' : Plain p) (hf : h.find fs.root ps = some d)
    (hd : h.isDir d = true) (hlt : d < h.next) (hfree : h.entry d p = none) (perm : FileMode)
    (now : ℤ) :
    ∃ h' n f, fs.rootFile.openAt h (spell (ps ++ [p])) createFlags perm now = (h', .ok f) ∧
      Adds h h' d p n ∧ n.mode = perm.perm ||| 0o600 ∧ n.data.len = 0 ∧ f.node = h.next ∧
      f.flag = createFlags ∧ f.offset = 0 := by
  have hres : h.resolve fs.rootFile.fs.root fs.rootFile.node (spell (ps ++ [p])) true =
    .ok (d, p) := resolve_parent hp hp' hf hd
  have hadd := adds_child hlt.ne p ⟨perm.perm ||| 0o600, .nil, now, ∅, none⟩ now
  obtain ⟨n, hopen, hm, hdata⟩ := File.openNode_ref
    (f := ⟨fs, h.next, base (spell (ps ++ [p])), createFlags, 0, 0⟩)
    (n := ⟨perm.perm ||| 0o600, .nil, now, ∅, none⟩) (isDir_fileMode _) (spell (ps ++ [p])) now
  refine ⟨_, n, ⟨fs, h.next, base (spell (ps ++ [p])), createFlags, 0, 0⟩, ?_,
    hadd.modify hlt.ne fun _ => n, hm, ?_, rfl, rfl, rfl⟩
  · rw [File.openAt, if_pos (by rfl : createFlags.creat = true), hres]
    dsimp only
    rw [hfree]
    dsimp only
    have hfs : fs.rootFile.fs = fs := rfl
    rw [Heap.openFound, Heap.newFile, hadd.new, hfs, hopen]
  · rw [← n.data.length_toList, hdata]
    rfl

theorem addFile_new (hp : ∀ q ∈ ps, Plain q) (hp' : Plain p) (hf : h.find fs.root ps = some d)
    (hd : h.isDir d = true) (hlt : d < h.next) (hfree : h.entry d p = none)
    (htarget : e.target = spell (ps ++ [p])) (hread : e.bodyErr = false)
    (hsize : e.body.flatten.length < 2 ^ 63) (now : ℤ) :
    ∃ h' n, fs.addFile h e now = (h', none) ∧ Adds h h' d p n ∧
      n.mode = e.mode.perm ||| 0o600 ∧ n.data.toList = e.body.flatten := by
  obtain ⟨h1, n1, f, hopen, hadd, hm, hlen, hnode, hflag, hoff⟩ :=
    openAt_new hp hp' hf hd hlt hfree e.mode now
  have hnew : h1.node f.node = n1 := by rw [hnode, hadd.new]
  obtain ⟨n2, hcopy, hs, hdata⟩ := copyBody_appends (h := h1) (f := f) now
    (by rw [Heap.isDir, hnew, hm]; exact isDir_fileMode _) (by rw [File.writable, hflag]; rfl)
    (by rw [hflag]; rfl) (by rw [hnew, hlen, hoff]; rfl) e.body (by rw [hnew, hlen]; omega)
  rw [hnew] at hs hdata
  rw [hnode] at hcopy
  refine ⟨_, _, ?_, (hadd.modify hlt.ne fun _ => n2).modify hlt.ne fun n =>
    { n with modTime := e.modTime }, hs.mode.trans hm, ?_⟩
  · rw [FS.addFile, htarget, hopen]
    dsimp only
    rw [hcopy]
    dsimp only
    rw [hread, hnode]
    rfl
  · have hnil : n1.data.toList = [] := length_eq_zero_iff.mp (n1.data.length_toList.trans hlen)
    rw [hdata, hnil, nil_append]

theorem addEntry_file (hp : ∀ q ∈ ps, Plain q) (hp' : Plain p) (hf : h.find fs.root ps = some d)
    (hd : h.isDir d = true) (hlt : d < h.next) (hfree : h.entry d p = none)
    (hname : e.name = spell (ps ++ [p])) (htype : e.typeflag = .typeReg)
    (hread : e.bodyErr = false) (hsize : e.body.flatten.length < 2 ^ 63) (now : ℤ) :
    ∃ h' n, fs.addEntry h e now = (h', none) ∧ Adds h h' d p n ∧
      n.mode = e.mode.perm ||| 0o600 ∧ n.data.toList = e.body.flatten := by
  have hne : ps ++ [p] ≠ [] := append_ne_nil_of_right_ne_nil ps (cons_ne_nil p [])
  have htarget := target_file hne (plain_snoc hp hp') hname
  obtain ⟨h', n, hadd, hrest⟩ := addFile_new hp hp' hf hd hlt hfree htarget hread hsize now
  refine ⟨h', n, ?_, hrest⟩
  rw [FS.addEntry, if_neg (target_ne hne (plain_snoc hp hp') htarget), htype]
  dsimp only
  by_cases hps : ps = []
  · -- at the root there is nothing to make
    have hdir : dir e.target = dot := by
      rw [htarget, hps, nil_append, spell_singleton]
      exact dir_name hp'
    rw [if_neg (not_not.mpr hdir), hadd]
  · have hdir : dir e.target = spell ps := by
      rw [htarget]
      exact dir_spell hps hp hp'
    rw [if_pos (by rw [hdir]; exact spell_ne_dot hps hp), hdir,
      mkdirAll_found 0o700 now hps hp hf]
    exact hadd

end

end PgZero.Memfs
