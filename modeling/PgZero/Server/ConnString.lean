import PgZero.Lib.ConnInfo

/-!
# Connection strings of a server

`Server.ConnString` and its quoting, against the grammar of libpq. A value is quoted if it has a
space, a quote or a backslash; the other white space that ends a value is not looked for.

* **`connString_parses`**: the settings are read back exactly for the names that are quoted or have
  no white space; **`connString_unsafe`**: what is read for the others.
-/

set_option autoImplicit false

namespace PgZero.Server

open Lib ConnInfo List

/-- The socket's directory. -/
def socketDir : Str := ascii "/tmp"

/-- The user. -/
def superuser : Str := ascii "postgres"

/-- `%d` -/
def decimal (n : ℤ) : Str :=
  (if n < 0 then [45] else []) ++ (Nat.toDigits 10 n.natAbs).map fun c => UInt8.ofNat c.toNat

/-- `strings.ContainsAny` for ASCII characters. -/
def containsAny (s chars : Str) : Bool := s.any fun b => chars.contains b

/-- ``strings.NewReplacer(`\`, `\\`, `'`, `\'`)`` -/
def connReplacer (b : UInt8) : Str :=
  if b = 92 then [92, 92] else if b = 39 then [92, 39] else [b]

/-- `quoteConnValue`. -/
def quoteConnValue (v : Str) : Str :=
  if v ≠ [] ∧ ¬ containsAny v (ascii " '\\") then v
  else ascii "'" ++ v.flatMap connReplacer ++ ascii "'"

/-- `Server.ConnString` of a server with this port. -/
def connString (port : ℤ) (database : Str) : Str :=
  ascii "host=" ++ socketDir ++ ascii " port=" ++ decimal port ++ ascii " user=" ++ superuser ++
    ascii " dbname=" ++ quoteConnValue database ++ ascii " sslmode=disable"

/-- The settings that the string is to spell. -/
def connSettings (port : ℤ) (database : Str) : Settings :=
  [(ascii "host", socketDir), (ascii "port", decimal port), (ascii "user", superuser),
    (ascii "dbname", database), (ascii "sslmode", ascii "disable")]

/-! ### Values -/

/-- The name is quoted, or has no white space. -/
def Safe (v : Str) : Prop :=
  v = [] ∨ containsAny v (ascii " '\\") ∨ ∀ b ∈ v, isSpace b = false

theorem decimal_byte {n : ℤ} {b : UInt8} (h : b ∈ decimal n) : b = 45 ∨ (48 ≤ b ∧ b ≤ 57) := by
  rcases mem_append.mp h with h | h
  · split_ifs at h
    · exact Or.inl (mem_singleton.mp h)
    · cases h
  · obtain ⟨c, hc, rfl⟩ := mem_map.mp h
    have hdigit := Nat.isDigit_of_mem_toDigits (by decide) (by decide) hc
    obtain ⟨h1, h2⟩ : 48 ≤ c.toNat ∧ c.toNat ≤ 57 := by
      simpa [Char.isDigit, UInt32.le_iff_toNat_le] using hdigit
    have hsize : c.toNat < UInt8.size := h2.trans_lt (by decide)
    right
    rw [UInt8.le_iff_toNat_le, UInt8.le_iff_toNat_le, UInt8.toNat_ofNat_of_lt' hsize]
    exact ⟨h1, h2⟩

theorem bare_decimal (n : ℤ) : Bare (decimal n) where
  ne_nil := by simp [decimal, Nat.toDigits_ne_nil]
  ne_quote h := by rcases decimal_byte h with h | h <;> revert h <;> decide
  ne_backslash h := by rcases decimal_byte h with h | h <;> revert h <;> decide
  not_space b h := by
    rcases decimal_byte h with rfl | ⟨h1, h2⟩
    · decide
    · rw [UInt8.le_iff_toNat_le] at h1 h2
      have hne : b ≠ 32 := by
        rintro rfl
        exact absurd h1 (by decide)
      have hgt : ¬ b ≤ 13 := by
        rw [UInt8.le_iff_toNat_le]
        exact fun h => absurd (h1.trans h) (by decide)
      simp [isSpace, hne, hgt]

theorem connReplacer_eq_escape (b : UInt8) : connReplacer b = escape b := by
  unfold connReplacer escape backslash quote
  by_cases h1 : b = 92
  · simp [h1]
  · by_cases h2 : b = 39
    · simp [h2]
    · simp [h1, h2]

theorem mem_of_containsAny {v : Str} :
    containsAny v (ascii " '\\") = true ↔ 32 ∈ v ∨ quote ∈ v ∨ backslash ∈ v := by
  have hchars : ascii " '\\" = [32, 39, 92] := rfl
  simp only [containsAny, hchars, any_eq_true, contains_iff_mem, mem_cons,
    not_mem_nil, or_false]
  constructor
  · rintro ⟨b, hb, rfl | rfl | rfl⟩
    · exact Or.inl hb
    · exact Or.inr (Or.inl hb)
    · exact Or.inr (Or.inr hb)
  · rintro (h | h | h)
    · exact ⟨32, h, Or.inl rfl⟩
    · exact ⟨39, h, Or.inr (Or.inl rfl)⟩
    · exact ⟨92, h, Or.inr (Or.inr rfl)⟩

theorem quoteConnValue_bare {v : Str} (hne : v ≠ []) (h : ¬ containsAny v (ascii " '\\")) :
    quoteConnValue v = v := if_pos ⟨hne, h⟩

/-- A safe name is read back from what stands for it, up to the white space after it. -/
theorem value_quoteConnValue {v : Str} (hv : Safe v) (rest : Str) :
    ∃ sp, (∀ b ∈ sp, isSpace b) ∧
      value (quoteConnValue v ++ 32 :: rest) = some (v, sp ++ rest) := by
  by_cases hq : v ≠ [] ∧ ¬ containsAny v (ascii " '\\")
  · obtain ⟨hne, hany⟩ := hq
    have hspace := (hv.resolve_left hne).resolve_left hany
    rw [mem_of_containsAny, not_or, not_or] at hany
    refine ⟨[], by simp, ?_⟩
    rw [quoteConnValue, if_pos ⟨hne, by rw [mem_of_containsAny]; simpa using hany⟩]
    exact value_bare ⟨hne, hany.2.1, hany.2.2, hspace⟩ rfl rest
  · refine ⟨[32], by simp [isSpace], ?_⟩
    rw [quoteConnValue, if_neg hq, funext connReplacer_eq_escape, append_assoc,
      append_assoc]
    exact value_quoted v (32 :: rest)

/-! ### The string -/

/-- The string from the name of the database on. -/
def connTail (database : Str) : Str :=
  ascii "dbname" ++ equals :: (quoteConnValue database ++ 32 ::
    (ascii "sslmode" ++ equals :: ascii "disable"))

theorem connString_eq (port : ℤ) (database : Str) :
    connString port database =
      ascii "host" ++ equals :: (socketDir ++ 32 :: (ascii "port" ++ equals ::
        (decimal port ++ 32 :: (ascii "user" ++ equals ::
          (superuser ++ 32 :: connTail database))))) := by
  simp only [connString, connTail, append_assoc]
  rfl

/-- The settings before the name of the database. -/
def connHead (port : ℤ) : Settings :=
  [(ascii "host", socketDir), (ascii "port", decimal port), (ascii "user", superuser)]

theorem leads_connTail (port : ℤ) (database : Str) :
    Loop.Leads turn (connString port database, []) (connTail database, connHead port) := by
  have hk1 : Keyword (ascii "host") := .of_all (by decide) (by decide)
  have hk2 : Keyword (ascii "port") := .of_all (by decide) (by decide)
  have hk3 : Keyword (ascii "user") := .of_all (by decide) (by decide)
  have hv1 : Bare socketDir := .of_all (by decide) (by decide)
  have hv3 : Bare superuser := .of_all (by decide) (by decide)
  have hsp : ∀ b ∈ ([] : Str), isSpace b := by simp
  rw [connString_eq]
  refine .trans (.one (turn_setting [] hsp hk1 (value_bare hv1 rfl _))) ?_
  refine .trans (.one (turn_setting _ hsp hk2 (value_bare (bare_decimal port) rfl _))) ?_
  exact .one (turn_setting _ hsp hk3 (value_bare hv3 rfl _))

theorem keyword_dbname : Keyword (ascii "dbname") := .of_all (by decide) (by decide)

theorem nul_connString (port : ℤ) {database : Str} (h0 : 0 ∉ database) :
    0 ∉ connString port database := by
  have hdec : 0 ∉ decimal port := fun h => by
    rcases decimal_byte h with h | h <;> revert h <;> decide
  have hval : 0 ∉ quoteConnValue database := by
    unfold quoteConnValue
    split_ifs
    · exact h0
    · simp only [mem_append, mem_flatMap, not_or, not_exists, not_and]
      refine ⟨⟨by decide, fun b hb hmem => ?_⟩, by decide⟩
      rw [connReplacer_eq_escape, escape] at hmem
      have hne : b ≠ 0 := fun h => h0 (h ▸ hb)
      split_ifs at hmem
      · simp [hne.symm, backslash] at hmem
      · simp [hne.symm] at hmem
  simp only [connString, mem_append, not_or]
  exact ⟨⟨⟨⟨⟨⟨⟨⟨by decide, by decide⟩, by decide⟩, hdec⟩, by decide⟩, by decide⟩, by decide⟩, hval⟩,
    by decide⟩

theorem parse_of_safe (port : ℤ) {database : Str} (h0 : 0 ∉ database) (hsafe : Safe database) :
    parse (connString port database) = some (connSettings port database) := by
  have hk : Keyword (ascii "sslmode") := .of_all (by decide) (by decide)
  have hv : Bare (ascii "disable") := .of_all (by decide) (by decide)
  obtain ⟨sp, hsp, hval⟩ :=
    value_quoteConnValue hsafe (ascii "sslmode" ++ equals :: ascii "disable")
  refine parse_of_ends (nul_connString port h0) ((leads_connTail port database).ends ?_)
  have hname := @turn_setting [] _ _ _ _ (connHead port) (by simp) keyword_dbname hval
  refine (Loop.Leads.one hname).ends ?_
  refine (Loop.Leads.one (turn_setting _ hsp hk (value_bare_last hv))).ends ?_
  exact .now (turn_nil _)

/-- What is read for a name that is not safe: the value ends at the white space in it. -/
theorem dbname_of_unsafe {port : ℤ} {database : Str} {settings : Settings} (h0 : 0 ∉ database)
    (hraw : ¬ Safe database) (hparse : parse (connString port database) = some settings) :
    ∃ v rest, settings = connHead port ++ (ascii "dbname", v) :: rest ∧ v ≠ database ∧
      ∀ b ∈ v, isSpace b = false := by
  simp only [Safe, not_or, not_forall] at hraw
  obtain ⟨hne, hany, b, hb, hspace⟩ := hraw
  have hends := (ends_of_parse (nul_connString port h0) hparse).after
    (leads_connTail port database)
  rw [connTail, quoteConnValue_bare hne hany] at hends
  obtain ⟨v, t, hval, rest, hrest⟩ := value_of_ends keyword_dbname hends
  rw [mem_of_containsAny, not_or, not_or] at hany
  have hno := not_space_of_value (by simpa using ⟨hany.2.1, by decide⟩)
    (by simpa using ⟨hany.2.2, by decide⟩) hval
  refine ⟨v, rest, by rw [← hrest, append_assoc, singleton_append], ?_, hno⟩
  rintro rfl
  exact hspace (hno b hb)

theorem safe_of_parse {port : ℤ} {database : Str} (h0 : 0 ∉ database)
    (hparse : parse (connString port database) = some (connSettings port database)) :
    Safe database := by
  by_contra hraw
  obtain ⟨v, rest, he, hv, -⟩ := dbname_of_unsafe h0 hraw hparse
  simp only [connHead, connSettings, cons_append, nil_append, List.cons.injEq] at he
  exact hv (Prod.ext_iff.mp he.2.2.2.1).2.symm

/-- **No injection.** libpq reads the five settings back exactly for the safe names. -/
theorem connString_parses (port : ℤ) (database : Str) (h0 : 0 ∉ database) :
    parse (connString port database) = some (connSettings port database) ↔ Safe database :=
  ⟨safe_of_parse h0, parse_of_safe port h0⟩

/-- `it's` in the quotes it needs. -/
theorem connString_parses_quote :
    parse (connString 5432 (ascii "it's")) = some (connSettings 5432 (ascii "it's")) :=
  (connString_parses 5432 (ascii "it's") (by decide)).mpr (Or.inr (Or.inl (by decide)))

/-- A name with a tab sets another host. -/
theorem connString_tab :
    let database := ascii "a\thost=evil"
    0 ∉ database ∧
    parse (connString 5432 database) = some [(ascii "host", ascii "/tmp"),
      (ascii "port", ascii "5432"), (ascii "user", ascii "postgres"), (ascii "dbname", ascii "a"),
      (ascii "host", ascii "evil"), (ascii "sslmode", ascii "disable")] ∧
    parse (connString 5432 database) ≠ some (connSettings 5432 database) := by
  decide +kernel

/-- Whatever libpq reads for another name, the database that it reads is not that name; host, port
and user come first as they were meant. -/
theorem connString_unsafe (port : ℤ) {database : Str} (h0 : 0 ∉ database)
    (hraw : ¬ Safe database) :
    parse (connString port database) ≠ some (connSettings port database) ∧
      ∀ settings, parse (connString port database) = some settings →
        ∃ v rest, settings = connHead port ++ (ascii "dbname", v) :: rest ∧ v ≠ database ∧
          ∀ b ∈ v, isSpace b = false :=
  ⟨fun hparse => hraw (safe_of_parse h0 hparse), fun _ hparse => dbname_of_unsafe h0 hraw hparse⟩

/-- After a tab only, the next setting is taken for the name. -/
theorem connString_unsafe_tab :
    let settings := connHead 1 ++ [(ascii "dbname", ascii "sslmode=disable")]
    parse (connString 1 (ascii "\t")) = some settings ∧
      parse (connString 1 (ascii "\t")) ≠ some (connSettings 1 (ascii "\t")) ∧
      ∃ v rest, settings = connHead 1 ++ (ascii "dbname", v) :: rest ∧ v ≠ ascii "\t" := by
  intro settings
  have hread : parse (connString 1 (ascii "\t")) = some settings := by decide +kernel
  obtain ⟨hne, hall⟩ := connString_unsafe 1 (show 0 ∉ ascii "\t" by decide)
    (by simp [Safe]; decide)
  obtain ⟨v, rest, he, hv, -⟩ := hall settings hread
  exact ⟨hread, hne, v, rest, he, hv⟩

end PgZero.Server
