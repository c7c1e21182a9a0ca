/-
LibC.Config.IniTheorems — `CIniFile` reads what the file says.

`getString_total` is about every buffer: `GetString` comes to an end and reads no byte
outside the buffer, unless the item has no name. `getString_text` connects it with
`lookup`, which goes line by line, for all texts whose lines are ended. Two kinds of text are
left out, which `GetString` reads in another way: one that begins with the name of the section
itself, and one with a line of the item that has no equals sign.

No `sorry`, no `axiom`, no `native_decide`.
-/
import LibC.Config.Ini

namespace LibC.Ini

open LibC.Lib

variable {buf : Bytes}

/-! ## Pointers -/

/-- A byte of the buffer, or the zero byte behind it. -/
theorem peek_eq {i : ℤ} {n : ℕ} (hi : i = n) (hn : n ≤ buf.length) :
    peek buf i = some (buf.getD n 0) := by
  subst hi
  have hin : (0 : ℤ) ≤ n ∧ (n : ℤ) ≤ buf.length := ⟨by omega, by omega⟩
  rw [peek, if_pos hin, Int.toNat_natCast]

/-- What `strstr` finds is in the buffer. -/
theorem strstr_le {p q : ℕ} {pat : Bytes} (hp : p ≤ buf.length)
    (h : strstr buf p pat = some q) : p ≤ q ∧ q + pat.length ≤ buf.length := by
  obtain ⟨i, hi, rfl⟩ := Option.map_eq_some_iff.mp h
  obtain ⟨hle, hocc, _⟩ := findStr_eq_some.mp hi
  have hlen := hocc.length_le
  have hstr := (List.takeWhile_prefix (l := buf.drop p) (· ≠ 0)).length_le
  rw [List.length_drop] at hlen hstr
  have hc : (cString (buf.drop p)).length ≤ buf.length - p := hstr
  omega

/-- A byte that is not zero is there. -/
theorem getD_eq_iff {t : Bytes} {i : ℕ} {c : UInt8} (hc : c ≠ 0) :
    t.getD i 0 = c ↔ t[i]? = some c := by
  rw [List.getD_eq_getElem?_getD]
  cases t[i]? with
  | none => simpa using Ne.symm hc
  | some a => simp

/-- A string and one more byte. -/
theorem concat_prefix_iff {l t : Bytes} {c : UInt8} :
    l ++ [c] <+: t ↔ l <+: t ∧ t[l.length]? = some c := by
  constructor
  · rintro ⟨r, rfl⟩
    exact ⟨⟨c :: r, by simp⟩, by simp⟩
  · rintro ⟨⟨r, rfl⟩, hr⟩
    cases r with
    | nil => simp at hr
    | cons a r =>
        obtain rfl : a = c := by simpa using hr
        exact ⟨r, by simp⟩

theorem cons_prefix_iff {l t : Bytes} {c : UInt8} {i : ℕ} :
    c :: l <+: t.drop i ↔ t[i]? = some c ∧ l <+: t.drop (i + 1) := by
  cases hc : t[i]? with
  | none =>
      have hlen : t.length ≤ i := List.getElem?_eq_none_iff.mp hc
      simp [List.drop_eq_nil_of_le hlen]
  | some a =>
      obtain ⟨hlt, rfl⟩ := List.getElem?_eq_some_iff.mp hc
      rw [List.drop_eq_getElem_cons hlt, List.cons_prefix_cons, Option.some.injEq]
      exact and_congr_left fun _ => eq_comm

/-- A text without zero bytes is one string. -/
theorem cString_drop (h0 : 0 ∉ buf) (p : ℕ) : cString (buf.drop p) = buf.drop p := by
  refine List.takeWhile_eq_self_iff.mpr fun c hc => ?_
  have hne : c ≠ 0 := fun heq => h0 (heq ▸ List.mem_of_mem_drop hc)
  simpa using hne

/-- `strstr` in a text without zero bytes. -/
theorem strstr_eq_some (h0 : 0 ∉ buf) {p q : ℕ} {pat : Bytes} (hp : p ≤ buf.length) :
    strstr buf p pat = some q ↔
      p ≤ q ∧ q ≤ buf.length ∧ pat <+: buf.drop q ∧ ∀ j, p ≤ j → j < q → ¬ pat <+: buf.drop j := by
  simp only [strstr, cString_drop h0, Option.map_eq_some_iff, findStr_eq_some, List.length_drop,
    List.drop_drop]
  constructor
  · rintro ⟨i, ⟨hle, hocc, hno⟩, rfl⟩
    refine ⟨Nat.le_add_right p i, by omega, hocc, fun j hpj hj => ?_⟩
    have hj' := hno (j - p) (by omega)
    rwa [Nat.add_sub_cancel' hpj] at hj'
  · rintro ⟨hpq, hq, hocc, hno⟩
    refine ⟨q - p, ⟨by omega, by rwa [Nat.add_sub_cancel' hpq], fun j hj => ?_⟩, by omega⟩
    exact hno (p + j) (by omega) (by omega)

theorem strstr_eq_none (h0 : 0 ∉ buf) {p : ℕ} {pat : Bytes} (h : strstr buf p pat = none) (j : ℕ)
    (hpj : p ≤ j) : ¬ pat <+: buf.drop j := by
  have hno := findStr_eq_none.mp (Option.map_eq_none_iff.mp h) (j - p)
  rwa [cString_drop h0, List.drop_drop, Nat.add_sub_cancel' hpj] at hno

/-- What `strstr` finds is there. -/
theorem strstr_occurs {p q : ℕ} {pat : Bytes} (h : strstr buf p pat = some q) :
    pat <+: buf.drop q := by
  obtain ⟨i, hi, rfl⟩ := Option.map_eq_some_iff.mp h
  obtain ⟨_, hocc, _⟩ := findStr_eq_some.mp hi
  rw [← List.drop_drop]
  exact hocc.trans ((List.takeWhile_prefix _).drop i)

/-! ## The rounds of the loops -/

/-- A line of the section begins at a place. -/
def HeaderAt (buf sec : Bytes) (i : ℕ) : Prop :=
  LineStart 10 true buf i ∧ IsHeader sec (buf.drop i)

/-- A section begins at a place. -/
def OpensAt (buf : Bytes) (i : ℕ) : Prop := LineStart 10 false buf i ∧ Opens (buf.drop i)

/-- A line of the item begins at a place. -/
def ItemAt (buf item : Bytes) (i : ℕ) : Prop :=
  LineStart 10 false buf i ∧ IsItem item (buf.drop i)

/-- What the code looks at around the name of a section. -/
theorem headerAt_iff {sec : Bytes} {q : ℕ} (hq : 1 ≤ q) (hocc : sec <+: buf.drop q) :
    HeaderAt buf sec (q - 1) ↔ buf.getD (q - 1) 0 = 91 ∧ buf.getD (q + sec.length) 0 = 93 ∧
      (q > 1 → buf.getD (q - 2) 0 = 10) := by
  rw [HeaderAt, IsHeader, cons_prefix_iff, Nat.sub_add_cancel hq, concat_prefix_iff,
    getD_eq_iff (by decide), getD_eq_iff (by decide), getD_eq_iff (by decide), List.getElem?_drop]
  have hstart : LineStart 10 true buf (q - 1) ↔ (q > 1 → buf[q - 2]? = some 10) := by
    obtain ⟨k, rfl⟩ := Nat.exists_eq_add_of_le' hq
    cases k with
    | zero => simp [LineStart]
    | succ k => simp [LineStart]
  rw [hstart]
  constructor
  · rintro ⟨hs, h1, _, h2⟩
    exact ⟨h1, h2, hs⟩
  · rintro ⟨h1, h2, hs⟩
    exact ⟨hs, h1, hocc, h2⟩

open Classical in
/-- A round of the loop that locates the section. -/
theorem locateSection_round (sec : Bytes) (fuel : ℕ) {p : ℕ} (hp : p < buf.length) :
    locateSection buf sec (fuel + 1) p =
      match strstr buf p sec with
      | none => some .error
      | some q =>
          if q = 0 then some .error
          else if HeaderAt buf sec (q - 1) then some (.found q)
          else locateSection buf sec fuel (q + sec.length) := by
  rw [locateSection, if_pos hp]
  cases hs : strstr buf p sec with
  | none => rfl
  | some q =>
      obtain ⟨hpq, hq⟩ := strstr_le (Nat.le_of_lt hp) hs
      by_cases h0 : q = 0
      · simp [h0]
      · have h1 : peek buf ((q : ℤ) - 1) = some (buf.getD (q - 1) 0) :=
          peek_eq (by omega) (by omega)
        have h2 : peek buf ↑(q + sec.length) = some (buf.getD (q + sec.length) 0) := peek_eq rfl hq
        simp only [if_neg h0, h1, h2, Option.bind_eq_bind, Option.bind_some,
          headerAt_iff (show 1 ≤ q by omega) (strstr_occurs hs)]
        by_cases hgt : q > 1
        · have h3 : peek buf ((q : ℤ) - 2) = some (buf.getD (q - 2) 0) :=
            peek_eq (by omega) (by omega)
          simp only [h3, Option.bind_some, if_pos hgt]
          grind
        · grind

/-- What the code looks at around the item. -/
theorem itemAt_iff {item : Bytes} {q : ℕ} (hq : 1 ≤ q) (hocc : item <+: buf.drop q) :
    ItemAt buf item q ↔ buf.getD (q - 1) 0 = 10 ∧ (buf.getD (q + item.length) 0 = 32 ∨
      buf.getD (q + item.length) 0 = 61 ∨ buf.getD (q + item.length) 0 = 9) := by
  obtain ⟨k, rfl⟩ := Nat.exists_eq_add_of_le' hq
  simp only [ItemAt, IsItem, LineStart, concat_prefix_iff, hocc, true_and, List.getElem?_drop,
    Nat.add_sub_cancel]
  rw [getD_eq_iff (by decide), getD_eq_iff (by decide), getD_eq_iff (by decide),
    getD_eq_iff (by decide)]

open Classical in
/-- A round of the loop that locates the item. -/
theorem locateItem_round (item : Bytes) (n fuel : ℕ) {p : ℕ} (h1 : 1 ≤ p) (hp : p < buf.length) :
    locateItem buf item n (fuel + 1) p =
      match strstr buf p item with
      | none => some .error
      | some q =>
          if n ≤ q then some .error
          else if ItemAt buf item q then some (.found q)
          else locateItem buf item n fuel (q + item.length) := by
  rw [locateItem, if_pos hp]
  cases hs : strstr buf p item with
  | none => rfl
  | some q =>
      obtain ⟨hpq, hq⟩ := strstr_le (Nat.le_of_lt hp) hs
      by_cases hn : n ≤ q
      · simp [hn]
      · have hleft : peek buf ((q : ℤ) - 1) = some (buf.getD (q - 1) 0) :=
          peek_eq (by omega) (by omega)
        have hright : peek buf ↑(q + item.length) = some (buf.getD (q + item.length) 0) :=
          peek_eq rfl hq
        simp only [ge_iff_le, if_neg hn, hleft, hright, Option.bind_eq_bind, Option.bind_some,
          itemAt_iff (Nat.le_trans h1 hpq) (strstr_occurs hs)]
        grind

open Classical in
/-- A round of the loop that locates the next section. -/
theorem locateNext_round (fuel : ℕ) {p : ℕ} (h1 : 1 ≤ p) (hp : p ≤ buf.length) :
    locateNext buf (fuel + 1) p =
      match strstr buf p [91] with
      | none => some buf.length
      | some q => if OpensAt buf q then some q else locateNext buf fuel (q + 1) := by
  rw [locateNext]
  cases hs : strstr buf p [91] with
  | none => rfl
  | some q =>
      obtain ⟨hpq, hq⟩ := strstr_le hp hs
      have hleft : peek buf ((q : ℤ) - 1) = some (buf.getD (q - 1) 0) :=
        peek_eq (by omega) (by omega)
      have hopens : OpensAt buf q ↔ buf.getD (q - 1) 0 = 10 := by
        obtain ⟨k, rfl⟩ := Nat.exists_eq_add_of_le' (Nat.le_trans h1 hpq)
        rw [OpensAt, and_iff_left (show Opens (buf.drop (k + 1)) from strstr_occurs hs),
          LineStart, Nat.add_sub_cancel, getD_eq_iff (by decide)]
      simp only [hleft, Option.bind_eq_bind, Option.bind_some, hopens]

/-! ## No fault -/

/-- The section is located, or not. -/
theorem locateSection_total {sec : Bytes} (hne : sec ≠ []) : ∀ (fuel p : ℕ),
    buf.length < fuel + p → p ≤ buf.length → ∃ r, locateSection buf sec fuel p = some r ∧
      ∀ q, r = .found q → 1 ≤ q ∧ q ≤ buf.length := by
  intro fuel
  induction fuel with
  | zero =>
      intro p hfuel hp
      omega
  | succ fuel ih =>
      intro p hfuel hp
      have hpos := List.length_pos_iff.mpr hne
      by_cases hlt : p < buf.length
      · rw [locateSection_round sec fuel hlt]
        cases hs : strstr buf p sec with
        | none => exact ⟨.error, rfl, fun q hq => nomatch hq⟩
        | some q =>
            obtain ⟨hpq, hq⟩ := strstr_le hp hs
            simp only
            split_ifs with h0 hhead
            · exact ⟨.error, rfl, fun q hq => nomatch hq⟩
            · exact ⟨.found q, rfl, fun q' hq' => by cases hq'; omega⟩
            · exact ih (q + sec.length) (by omega) hq
      · exact ⟨.past, by rw [locateSection, if_neg hlt], fun q hq => nomatch hq⟩

/-- A section without a name is not there. -/
theorem locateSection_nil (hbuf : buf ≠ []) (fuel : ℕ) :
    locateSection buf [] (fuel + 1) 0 = some .error := by
  have hs : strstr buf 0 [] = some 0 := by
    rw [strstr, List.drop_zero]
    cases cString buf <;> simp [findStr]
  rw [locateSection_round [] fuel (List.length_pos_iff.mpr hbuf), hs]
  rfl

/-- The next section is located. -/
theorem locateNext_total : ∀ (fuel p : ℕ), buf.length < fuel + p → 1 ≤ p → p ≤ buf.length →
    ∃ n, locateNext buf fuel p = some n := by
  intro fuel
  induction fuel with
  | zero =>
      intro p hfuel _ hp
      omega
  | succ fuel ih =>
      intro p hfuel h1 hp
      rw [locateNext_round fuel h1 hp]
      cases hs : strstr buf p [91] with
      | none => exact ⟨buf.length, rfl⟩
      | some q =>
          obtain ⟨hpq, hq⟩ := strstr_le hp hs
          rw [List.length_singleton] at hq
          simp only
          split_ifs
          · exact ⟨q, rfl⟩
          · exact ih (q + 1) (by omega) (by omega) hq

/-- The item is located, or not. -/
theorem locateItem_total {item : Bytes} (hne : item ≠ []) (n : ℕ) : ∀ (fuel p : ℕ),
    buf.length < fuel + p → 1 ≤ p → p ≤ buf.length →
      ∃ r, locateItem buf item n fuel p = some r := by
  intro fuel
  induction fuel with
  | zero =>
      intro p hfuel _ hp
      omega
  | succ fuel ih =>
      intro p hfuel h1 hp
      have hpos := List.length_pos_iff.mpr hne
      by_cases hlt : p < buf.length
      · rw [locateItem_round item n fuel h1 hlt]
        cases hs : strstr buf p item with
        | none => exact ⟨.error, rfl⟩
        | some q =>
            obtain ⟨hpq, hq⟩ := strstr_le hp hs
            simp only
            split_ifs
            · exact ⟨.error, rfl⟩
            · exact ⟨.found q, rfl⟩
            · exact ih (q + item.length) (by omega) (by omega) hq
      · exact ⟨.past, by rw [locateItem, if_neg hlt]⟩

/-- The value fits the array. -/
theorem length_copyValue_le (iValueLen : ℕ) : ∀ (text : Bytes) (n : ℕ) (szValue : Bytes),
    szValue.length ≤ iValueLen - 1 → (copyValue iValueLen text n szValue).length ≤ iValueLen - 1
  | [], _, _, h => h
  | c :: text, n, szValue, h => by
      have hput : szValue.length < iValueLen - 1 → (szValue ++ [c]).length ≤ iValueLen - 1 := by
        intro hlt
        rw [List.length_append, List.length_singleton]
        omega
      unfold copyValue
      split_ifs with hgo hblank hsemi hn
      · exact length_copyValue_le iValueLen text (n + 1) szValue h
      · cases text with
        | nil => exact h
        | cons c' text' =>
            simp only
            split_ifs
            · exact length_copyValue_le iValueLen text' (n + 2) _ (hput hgo.1)
            · exact h
      · exact h
      · exact length_copyValue_le iValueLen text (n + 1) _ (hput hgo.1)
      · exact h

theorem length_trimString_le (s : Bytes) : (trimString s).length ≤ s.length :=
  Nat.le_trans (List.dropWhile_suffix _).length_le (List.rdropWhile_prefix _ _).length_le

/-- A buffer that is valid is not empty. -/
theorem isValid_ne {ini : IniFile} (h : ini.isValid = some buf) : buf ≠ [] := by
  simp only [IniFile.isValid] at h
  split at h
  · cases h
  · split at h
    · cases h
    · next hlen =>
        obtain rfl := Option.some.inj h
        exact fun heq => hlen (congrArg List.length heq)

/-- **Every configuration file can be read.** Whatever the buffer holds, and for every item with a
name and every default that fits the array, `GetString` comes to an end and reads nothing outside
of the buffer, and there is a string in the array then; it is the default when the item is not
found. -/
theorem getString_total (ini : IniFile) (szSection : Bytes) {szItem szDefault : Bytes}
    {iValueLen : ℕ} (hitem : szItem ≠ []) (hdef : szDefault.length < iValueLen) :
    ∃ ret s, ini.getString szSection szItem szDefault iValueLen = some (ret, some s) ∧
      s.length < iValueLen ∧ (ret = 0 ∨ ret = eIniFile ∧ s = szDefault) := by
  have hfit : strncpy szDefault iValueLen = some szDefault := if_pos hdef
  have herr : ∃ ret s, some (eIniFile, some szDefault) = some (ret, some s) ∧
      s.length < iValueLen ∧ (ret = 0 ∨ ret = eIniFile ∧ s = szDefault) :=
    ⟨eIniFile, szDefault, rfl, hdef, Or.inr ⟨rfl, rfl⟩⟩
  have hpast : ∃ ret s, some ((0 : Int), some (trimString szDefault)) = some (ret, some s) ∧
      s.length < iValueLen ∧ (ret = 0 ∨ ret = eIniFile ∧ s = szDefault) :=
    ⟨0, _, rfl, Nat.lt_of_le_of_lt (length_trimString_le _) hdef, Or.inl rfl⟩
  simp only [IniFile.getString, hfit]
  cases hbuf : ini.isValid with
  | none => exact herr
  | some buf =>
      have hne := isValid_ne hbuf
      obtain ⟨r, hr, hat⟩ : ∃ r, locateSection buf szSection (buf.length + 1) 0 = some r ∧
          ∀ q, r = .found q → 1 ≤ q ∧ q ≤ buf.length := by
        by_cases hsec : szSection = []
        · exact ⟨.error, by rw [hsec, locateSection_nil hne], fun q hq => nomatch hq⟩
        · exact locateSection_total hsec (buf.length + 1) 0 (by omega) (Nat.zero_le _)
      cases r with
      | error => simpa [hr] using herr
      | past => simpa [hr] using hpast
      | found q =>
          obtain ⟨h1, hq⟩ := hat q rfl
          obtain ⟨n, hn⟩ := locateNext_total (buf.length + 1) q (by omega) h1 hq
          obtain ⟨r', hr'⟩ := locateItem_total hitem n (buf.length + 1) q (by omega) h1 hq
          simp only [hr, hn, Option.bind_eq_bind, Option.bind_some, hr']
          cases r' with
          | error => exact herr
          | past => exact hpast
          | found i =>
              simp only
              cases strstr buf i [61] with
              | none => exact herr
              | some e =>
                  simp only
                  split_ifs
                  · exact herr
                  · have hle := length_copyValue_le iValueLen (buf.drop (e + 1)) 0 []
                      (Nat.zero_le _)
                    have htrim := length_trimString_le (copyValue iValueLen (buf.drop (e + 1)) 0 [])
                    exact ⟨0, _, rfl, by omega, Or.inl rfl⟩

theorem getString_total_garbage :
    ascii "Port" ≠ [] ∧ (ascii "1").length < 32 ∧ ∃ ret s,
      (⟨some [91, 77, 81, 93, 0, 10, 80, 111]⟩ : IniFile).getString (ascii "MQ") (ascii "Port")
          (ascii "1") 32 = some (ret, some s) ∧
        s.length < 32 ∧ (ret = 0 ∨ ret = eIniFile ∧ s = ascii "1") :=
  ⟨by decide, by decide, getString_total ⟨some [91, 77, 81, 93, 0, 10, 80, 111]⟩ (ascii "MQ")
    (by decide) (by decide)⟩

/-! ## By lines -/

/-- A string that is not at the end of the text ends before it. -/
theorem end_lt {pat : Bytes} {q : ℕ} (hocc : pat <+: buf.drop q) (hq : q ≤ buf.length)
    (hend : ¬ pat <:+ buf) : q + pat.length < buf.length := by
  obtain ⟨r, hr⟩ := hocc
  have hlen := congrArg List.length hr
  rw [List.length_append, List.length_drop] at hlen
  refine Nat.lt_of_not_le fun hle => hend ?_
  have hnil : r = [] := List.length_eq_zero_iff.mp (by omega)
  rw [hnil, List.append_nil] at hr
  exact hr ▸ List.drop_suffix q buf

/-- A byte inside of an occurrence is one of the string. -/
theorem mem_of_inside {pat : Bytes} {q i : ℕ} {c : UInt8} (hocc : pat <+: buf.drop q) (hqi : q ≤ i)
    (hi : i < q + pat.length) (hc : buf[i]? = some c) : c ∈ pat := by
  obtain ⟨r, hr⟩ := hocc
  have hget : (buf.drop q)[i - q]? = pat[i - q]? := by
    rw [← hr, List.getElem?_append_left (by omega)]
  rw [List.getElem?_drop, Nat.add_sub_cancel' hqi, hc] at hget
  exact List.mem_of_getElem? hget.symm

/-- The header is found, and it is the first one. -/
theorem locateSection_first (h0 : 0 ∉ buf) {sec : Bytes} (hne : sec ≠ []) (hbr : 91 ∉ sec)
    (hend : ¬ sec <:+ buf) (hfirst : ¬ sec <+: buf) : ∀ (fuel p : ℕ),
    buf.length < fuel + p → p < buf.length → (∀ i < p, ¬ HeaderAt buf sec i) →
      (∃ i, HeaderAt buf sec i ∧ (∀ j < i, ¬ HeaderAt buf sec j) ∧
          locateSection buf sec fuel p = some (.found (i + 1))) ∨
        ((∀ i, ¬ HeaderAt buf sec i) ∧ locateSection buf sec fuel p = some .error) := by
  intro fuel
  induction fuel with
  | zero =>
      intro p hfuel hp _
      omega
  | succ fuel ih =>
      intro p hfuel hp hbefore
      have hname : ∀ i, HeaderAt buf sec i → sec <+: buf.drop (i + 1) := fun i hi =>
        (concat_prefix_iff.mp (cons_prefix_iff.mp hi.2).2).1
      have hpos := List.length_pos_iff.mpr hne
      rw [locateSection_round sec fuel hp]
      cases hs : strstr buf p sec with
      | none =>
          refine Or.inr ⟨fun i hi => ?_, rfl⟩
          rcases Nat.lt_or_ge i p with hlt | hge
          · exact hbefore i hlt hi
          · exact strstr_eq_none h0 hs (i + 1) (by omega) (hname i hi)
      | some q =>
          obtain ⟨hpq, hq, hocc, hno⟩ := (strstr_eq_some h0 (Nat.le_of_lt hp)).mp hs
          by_cases hz : q = 0
          · rw [hz] at hocc
            exact absurd hocc hfirst
          · have hearlier : ∀ i, i + 1 < q → ¬ HeaderAt buf sec i := fun i hi hhead => by
              rcases Nat.lt_or_ge i p with hlt | hge
              · exact hbefore i hlt hhead
              · exact hno (i + 1) (by omega) hi (hname i hhead)
            simp only [if_neg hz]
            by_cases hhead : HeaderAt buf sec (q - 1)
            · refine Or.inl ⟨q - 1, hhead, fun j hj => hearlier j (by omega), ?_⟩
              rw [if_pos hhead, Nat.sub_add_cancel (by omega)]
            · rw [if_neg hhead]
              refine ih (q + sec.length) (by omega) (end_lt hocc hq hend) fun i hi hi' => ?_
              rcases Nat.lt_trichotomy (i + 1) q with hlt | heq | hgt
              · exact hearlier i hlt hi'
              · exact hhead (by rwa [← heq, Nat.add_sub_cancel])
              · -- no bracket is inside of the name
                exact hbr (mem_of_inside hocc (by omega) hi (cons_prefix_iff.mp hi'.2).1)

/-- The next section is found. -/
theorem locateNext_first (h0 : 0 ∉ buf) (s : ℕ) : ∀ (fuel p : ℕ), buf.length < fuel + p → 1 ≤ p →
    p ≤ buf.length → (∀ i, s ≤ i → i < p → ¬ OpensAt buf i) →
      ∃ n, locateNext buf fuel p = some n ∧ p ≤ n ∧ n ≤ buf.length ∧
        (n < buf.length → OpensAt buf n) ∧ ∀ i, s ≤ i → i < n → ¬ OpensAt buf i := by
  intro fuel
  induction fuel with
  | zero =>
      intro p hfuel _ hp _
      omega
  | succ fuel ih =>
      intro p hfuel h1 hp hbefore
      rw [locateNext_round fuel h1 hp]
      cases hs : strstr buf p [91] with
      | none =>
          refine ⟨buf.length, rfl, hp, Nat.le_refl _, fun hlt => absurd hlt (Nat.lt_irrefl _),
            fun i hsi hi hopens => ?_⟩
          rcases Nat.lt_or_ge i p with hlt | hge
          · exact hbefore i hsi hlt hopens
          · exact strstr_eq_none h0 hs i hge hopens.2
      | some q =>
          obtain ⟨hpq, hq, hocc, hno⟩ := (strstr_eq_some h0 hp).mp hs
          have hle := (strstr_le hp hs).2
          rw [List.length_singleton] at hle
          have hearlier : ∀ i, s ≤ i → i < q → ¬ OpensAt buf i := fun i hsi hi hopens => by
            rcases Nat.lt_or_ge i p with hlt | hge
            · exact hbefore i hsi hlt hopens
            · exact hno i hge hi hopens.2
          simp only
          by_cases hopens : OpensAt buf q
          · exact ⟨q, if_pos hopens, hpq, hq, fun _ => hopens, hearlier⟩
          · rw [if_neg hopens]
            obtain ⟨n, hn, hqn, h⟩ := ih (q + 1) (by omega) (by omega) hle
              fun i hsi hi hi' => by
                rcases Nat.lt_succ_iff_lt_or_eq.mp hi with hlt | rfl
                · exact hearlier i hsi hlt hi'
                · exact hopens hi'
            exact ⟨n, hn, by omega, h⟩

/-- The item is found, if it is in the section, and it is the first one there. -/
theorem locateItem_first (h0 : 0 ∉ buf) {item : Bytes} (hne : item ≠ []) (hnl : 10 ∉ item)
    (hend : ¬ item <:+ buf) (s n : ℕ) : ∀ (fuel p : ℕ),
    buf.length < fuel + p → 1 ≤ p → p < buf.length → (∀ i, s ≤ i → i < p → ¬ ItemAt buf item i) →
      (∃ i, i < n ∧ ItemAt buf item i ∧ (∀ j, s ≤ j → j < i → ¬ ItemAt buf item j) ∧ p ≤ i ∧
          locateItem buf item n fuel p = some (.found i)) ∨
        ((∀ i, s ≤ i → i < n → ¬ ItemAt buf item i) ∧
          locateItem buf item n fuel p = some .error) := by
  intro fuel
  induction fuel with
  | zero =>
      intro p hfuel _ hp _
      omega
  | succ fuel ih =>
      intro p hfuel h1 hp hbefore
      have hname : ∀ i, ItemAt buf item i → item <+: buf.drop i := fun i hi => by
        rcases hi.2 with h | h | h <;> exact (concat_prefix_iff.mp h).1
      have hpos := List.length_pos_iff.mpr hne
      rw [locateItem_round item n fuel h1 hp]
      cases hs : strstr buf p item with
      | none =>
          refine Or.inr ⟨fun i hsi _ hi => ?_, rfl⟩
          rcases Nat.lt_or_ge i p with hlt | hge
          · exact hbefore i hsi hlt hi
          · exact strstr_eq_none h0 hs i hge (hname i hi)
      | some q =>
          obtain ⟨hpq, hq, hocc, hno⟩ := (strstr_eq_some h0 (Nat.le_of_lt hp)).mp hs
          have hearlier : ∀ i, s ≤ i → i < q → ¬ ItemAt buf item i := fun i hsi hi hitem => by
            rcases Nat.lt_or_ge i p with hlt | hge
            · exact hbefore i hsi hlt hitem
            · exact hno i hge hi (hname i hitem)
          simp only
          by_cases hnq : n ≤ q
          · exact Or.inr ⟨fun i hsi hi => hearlier i hsi (by omega), if_pos hnq⟩
          · rw [if_neg hnq]
            by_cases hitem : ItemAt buf item q
            · exact Or.inl ⟨q, by omega, hitem, hearlier, hpq, if_pos hitem⟩
            · rw [if_neg hitem]
              obtain h | h := ih (q + item.length) (by omega) (by omega) (end_lt hocc hq hend)
                  fun i hsi hi hi' => by
                rcases Nat.lt_trichotomy i q with hlt | rfl | hgt
                · exact hearlier i hsi hlt hi'
                · exact hitem hi'
                · -- no line begins inside of the item
                  obtain ⟨k, rfl⟩ := Nat.exists_eq_add_of_lt hgt
                  exact hnl (mem_of_inside hocc (by omega) (by omega) hi'.1)
              · obtain ⟨i, hin, hi, hi', hge, hret⟩ := h
                exact Or.inl ⟨i, hin, hi, hi', by omega, hret⟩
              · exact Or.inr h

theorem lineStart_drop {h i : ℕ} :
    LineStart 10 false (buf.drop h) i ↔ 1 ≤ i ∧ LineStart 10 false buf (h + i) := by
  cases i with
  | zero => simp [LineStart]
  | succ k => simp [LineStart]

/-- A line of a section that is the first one of its kind. -/
theorem atLine_drop {P : Bytes → Prop} [DecidablePred P] {h i : ℕ} (hi : h < i)
    (hlt : i < buf.length) (hstart : LineStart 10 false buf i) (hP : P (buf.drop i))
    (hno : ∀ j, h < j → j < i → LineStart 10 false buf j → ¬ P (buf.drop j)) :
    atLine 10 P false (buf.drop h) = some (buf.drop i) := by
  refine atLine_eq_some.mpr ⟨i - h, by rw [List.length_drop]; omega, ?_, ?_, hP, fun j hj hj' => ?_⟩
  · rw [List.drop_drop, Nat.add_sub_cancel' (Nat.le_of_lt hi)]
  · rw [lineStart_drop, Nat.add_sub_cancel' (Nat.le_of_lt hi)]
    exact ⟨by omega, hstart⟩
  · rw [lineStart_drop, List.drop_drop] at hj'
    exact hno (h + j) (by omega) (by omega) hj'.1.2 hj'.2

/-- The text from the line of the item on, if it comes before the next section. -/
def itemText (item t : Bytes) : Option Bytes :=
  (atLine 10 (fun u => Opens u ∨ IsItem item u) false t).filter fun u => ¬ Opens u

/-- The item is looked for up to the next section. -/
theorem itemText_eq (item : Bytes) {h n : ℕ} (hn : n ≤ buf.length)
    (hopens : n < buf.length → OpensAt buf n) (hno : ∀ j, h < j → j < n → ¬ OpensAt buf j)
    (hhn : h < n) :
    (∀ i, h < i → i < n → ItemAt buf item i → (∀ j, h < j → j < i → ¬ ItemAt buf item j) →
        itemText item (buf.drop h) = some (buf.drop i)) ∧
      ((∀ i, h < i → i < n → ¬ ItemAt buf item i) → itemText item (buf.drop h) = none) := by
  refine ⟨fun i hhi hin hitem hfirst => ?_, fun hnone => ?_⟩
  · have hnot : ¬ Opens (buf.drop i) := fun ho => hno i hhi hin ⟨hitem.1, ho⟩
    have hline : atLine 10 (fun u => Opens u ∨ IsItem item u) false (buf.drop h) =
        some (buf.drop i) := by
      refine atLine_drop hhi (by omega) hitem.1 (Or.inr hitem.2) fun j hhj hji hs hP => ?_
      rcases hP with hP | hP
      · exact hno j hhj (by omega) ⟨hs, hP⟩
      · exact hfirst j hhj hji ⟨hs, hP⟩
    simp [itemText, hline, hnot]
  · have hbefore : ∀ j, h < j → j < n → LineStart 10 false buf j →
        ¬ (Opens (buf.drop j) ∨ IsItem item (buf.drop j)) := fun j hhj hjn hs hP => by
      rcases hP with hP | hP
      · exact hno j hhj hjn ⟨hs, hP⟩
      · exact hnone j hhj hjn ⟨hs, hP⟩
    rcases Nat.lt_or_ge n buf.length with hlt | hge
    · have ho := hopens hlt
      have hline : atLine 10 (fun u => Opens u ∨ IsItem item u) false (buf.drop h) =
          some (buf.drop n) := atLine_drop hhn hlt ho.1 (Or.inl ho.2) hbefore
      simp [itemText, hline, ho.2]
    · have hline : atLine 10 (fun u => Opens u ∨ IsItem item u) false (buf.drop h) = none := by
        refine atLine_eq_none.mpr fun j hj hj' => ?_
        rw [List.length_drop] at hj
        rw [lineStart_drop, List.drop_drop] at hj'
        exact hbefore (h + j) (by omega) (by omega) hj'.1.2 hj'.2
      simp [itemText, hline]

/-! ## Texts of lines -/

theorem isHeader_line {sec : Bytes} (hnl : 10 ∉ sec) (l t : Bytes) :
    IsHeader sec (l ++ 10 :: t) ↔ IsHeader sec l :=
  prefix_line (by simpa using hnl) l t

theorem opens_line (l t : Bytes) : Opens (l ++ 10 :: t) ↔ Opens l :=
  prefix_line (by decide) l t

theorem isItem_line {item : Bytes} (hnl : 10 ∉ item) (l t : Bytes) :
    IsItem item (l ++ 10 :: t) ↔ IsItem item l := by
  have hline : ∀ c : UInt8, 10 ≠ c → (item ++ [c] <+: l ++ 10 :: t ↔ item ++ [c] <+: l) :=
    fun c hc => prefix_line (by simpa [hnl] using hc) l t
  rw [IsItem, IsItem, hline 32 (by decide), hline 61 (by decide), hline 9 (by decide)]

/-- The first line of a kind before one of another kind. -/
theorem find_takeWhile {p q : Bytes → Prop} [DecidablePred p] [DecidablePred q]
    (lines : List Bytes) : (lines.takeWhile fun l => ¬ p l).find? (fun l => q l) =
      (lines.dropWhile fun l => ¬ (p l ∨ q l)).head?.filter fun l => ¬ p l := by
  induction lines with
  | nil => rfl
  | cons l lines ih =>
      by_cases hp : p l
      · simp [hp, Option.filter_some]
      · rw [List.takeWhile_cons_of_pos (by simpa using hp)]
        by_cases hq : q l
        · simp [hp, hq, Option.filter_some]
        · rw [List.find?_cons_of_neg (by simpa using hq), ih,
            List.dropWhile_cons_of_pos (by simp [hp, hq])]

/-- The item is on the line that is looked up. -/
theorem itemText_lines {item : Bytes} (hnl : 10 ∉ item) {head : Bytes} (hhead : 10 ∉ head)
    {lines : List Bytes} (hlines : ∀ l ∈ lines, 10 ∉ l) :
    ∃ t, itemText item (head ++ 10 :: unlines 10 lines) =
      ((lines.takeWhile fun l => ¬ Opens l).find? fun l => IsItem item l).map (· ++ 10 :: t) := by
  have hline : ∀ l t : Bytes, (Opens (l ++ 10 :: t) ∨ IsItem item (l ++ 10 :: t)) ↔
      (Opens l ∨ IsItem item l) := fun l t => by rw [opens_line, isItem_line hnl]
  rw [itemText, atLine_rest hhead, atLine_unlines hline hlines, find_takeWhile]
  cases hrest : lines.dropWhile fun l => ¬ (Opens l ∨ IsItem item l) with
  | nil => exact ⟨[], rfl⟩
  | cons l rest =>
      refine ⟨unlines 10 rest, ?_⟩
      by_cases ho : Opens l
      · simp [unlines_cons, Option.filter_some, opens_line, ho]
      · simp [unlines_cons, Option.filter_some, opens_line, ho]

/-- The value is looked for behind the first equals sign of the line. -/
theorem strstr_equals (h0 : 0 ∉ buf) {i : ℕ} {l t : Bytes} (hi : buf.drop i = l ++ 10 :: t)
    (heq : 61 ∈ l) : ∃ e, strstr buf i [61] = some e ∧ e + 1 < buf.length ∧
      buf.drop (e + 1) = (l.dropWhile (· ≠ 61)).tail ++ 10 :: t := by
  obtain ⟨v, hv⟩ : ∃ v, l.dropWhile (· ≠ 61) = 61 :: v := by
    cases hd : l.dropWhile (· ≠ 61) with
    | nil => simpa using List.dropWhile_eq_nil_iff.mp hd 61 heq
    | cons c v =>
        have hc := List.head?_dropWhile_not (fun c : UInt8 => decide (c ≠ 61)) l
        rw [hd] at hc
        obtain rfl : c = 61 := by simpa using hc
        exact ⟨v, rfl⟩
  have hdrop : (buf.drop i).dropWhile (· ≠ 61) = 61 :: (v ++ 10 :: t) := by
    rw [hi, List.dropWhile_append, hv]
    rfl
  rw [dropWhile_ne_eq] at hdrop
  simp only [strstr, cString_drop h0, hv, List.tail_cons]
  cases hf : findStr [61] (buf.drop i) with
  | none =>
      rw [hf] at hdrop
      cases hdrop
  | some k =>
      rw [hf] at hdrop
      simp only [List.drop_drop] at hdrop
      have hnext : buf.drop (i + k + 1) = v ++ 10 :: t := by
        rw [← List.drop_drop, hdrop, List.drop_one, List.tail_cons]
      have hlen := congrArg List.length hdrop
      rw [List.length_drop, List.length_cons, List.length_append, List.length_cons] at hlen
      exact ⟨i + k, rfl, by omega, hnext⟩

/-- The copy stops at the end of a line. -/
theorem copyValue_newline (iValueLen : ℕ) (t : Bytes) (n : ℕ) (szValue : Bytes) :
    copyValue iValueLen (10 :: t) n szValue = szValue := by
  rw [copyValue.eq_def]
  simp

/-- The value ends with the line. -/
theorem copyValue_line (iValueLen : ℕ) (t : Bytes) : ∀ (v : Bytes) (n : ℕ) (szValue : Bytes),
    copyValue iValueLen (v ++ 10 :: t) n szValue = copyValue iValueLen v n szValue
  | [], n, szValue => copyValue_newline iValueLen t n szValue
  | [c], n, szValue => by
      rw [List.singleton_append, copyValue.eq_def, copyValue.eq_def iValueLen [c]]
      simp [copyValue_newline, copyValue]
  | c :: c' :: v, n, szValue => by
      have h1 := copyValue_line iValueLen t (c' :: v)
      have h2 := copyValue_line iValueLen t v
      rw [List.cons_append] at h1
      rw [List.cons_append, List.cons_append, copyValue.eq_def,
        copyValue.eq_def iValueLen (c :: c' :: v)]
      simp only [h1, h2]

/-- No name is at the end of such a text. -/
theorem unlines_not_suffix {pat : Bytes} (hne : pat ≠ []) (hnl : 10 ∉ pat) (lines : List Bytes) :
    ¬ pat <:+ unlines 10 lines := by
  intro hsuf
  rcases List.eq_nil_or_concat lines with rfl | ⟨init, l, rfl⟩
  · exact hne (List.suffix_nil.mp hsuf)
  · have hlast : unlines 10 (init.concat l) = (unlines 10 init ++ l) ++ [10] := by
      simp [unlines]
    rw [hlast] at hsuf
    rcases List.suffix_concat_iff.mp hsuf with rfl | ⟨y, rfl, _⟩
    · exact hne rfl
    · exact hnl (by simp)

/-- The header that is found is a line, and what follows are the other lines. -/
theorem headerAt_lines {sec : Bytes} (hnl : 10 ∉ sec) {lines : List Bytes}
    (hlines : ∀ l ∈ lines, 10 ∉ l) {h : ℕ} (hhead : HeaderAt (unlines 10 lines) sec h)
    (hfirst : ∀ j < h, ¬ HeaderAt (unlines 10 lines) sec j) :
    ∃ head rest, lines.dropWhile (fun l => ¬ IsHeader sec l) = head :: rest ∧
      (unlines 10 lines).drop h = head ++ 10 :: unlines 10 rest := by
  have hlt : h < (unlines 10 lines).length := by
    have hle := hhead.2.length_le
    rw [List.length_cons, List.length_append, List.length_drop, List.length_singleton] at hle
    omega
  have hline : atLine 10 (IsHeader sec) true (unlines 10 lines) =
      some ((unlines 10 lines).drop h) :=
    atLine_eq_some.mpr ⟨h, hlt, rfl, hhead.1, hhead.2, hfirst⟩
  rw [atLine_unlines (isHeader_line hnl) hlines] at hline
  cases hdrop : lines.dropWhile fun l => ¬ IsHeader sec l with
  | nil =>
      rw [if_pos hdrop] at hline
      cases hline
  | cons head rest =>
      rw [hdrop, if_neg (List.cons_ne_nil _ _), unlines_cons] at hline
      exact ⟨head, rest, rfl, (Option.some.inj hline).symm⟩

/-- No line is a header where none is found. -/
theorem not_headerAt_lines {sec : Bytes} (hnl : 10 ∉ sec) {lines : List Bytes}
    (hlines : ∀ l ∈ lines, 10 ∉ l) (hnone : ∀ h, ¬ HeaderAt (unlines 10 lines) sec h) :
    lines.dropWhile (fun l => ¬ IsHeader sec l) = [] := by
  have hline : atLine 10 (IsHeader sec) true (unlines 10 lines) = none :=
    atLine_eq_none.mpr fun h _ hhead => hnone h hhead
  rw [atLine_unlines (isHeader_line hnl) hlines] at hline
  by_contra hne
  rw [if_neg hne] at hline
  cases hline

theorem getString_lookup {lines : List Bytes} (hlines : ∀ l ∈ lines, 0 ∉ l ∧ 10 ∉ l)
    {sec item szDefault : Bytes} {iValueLen : ℕ} (hsec : SectionName sec) (hitem : ItemName item)
    (hfirst : ¬ sec <+: unlines 10 lines) (heq : ∀ l ∈ lines, IsItem item l → 61 ∈ l)
    (hdef : szDefault.length < iValueLen) :
    (⟨some (unlines 10 lines)⟩ : IniFile).getString sec item szDefault iValueLen =
      some (answer szDefault (lookup sec item iValueLen lines)) := by
  have hfit : strncpy szDefault iValueLen = some szDefault := if_pos hdef
  have hsecNl : 10 ∉ sec := fun hin => (hsec.plain 10 hin).2.1 rfl
  have hitemNl : 10 ∉ item := fun hin => (hitem.plain 10 hin).2.1 rfl
  have hbr : 91 ∉ sec := fun hin => (hsec.plain 91 hin).2.2.1 rfl
  have hnl : ∀ l ∈ lines, 10 ∉ l := fun l hl => (hlines l hl).2
  have hitemEnd := unlines_not_suffix hitem.ne hitemNl lines
  have h0 : 0 ∉ unlines 10 lines := fun hin => by
    obtain ⟨l, hl, hin⟩ : ∃ l ∈ lines, 0 ∈ l := by simpa [unlines] using hin
    exact (hlines l hl).1 hin
  by_cases hnil : lines = []
  · subst hnil
    simp [IniFile.getString, IniFile.isValid, hfit, lookup, sectionLines, unlines, answer]
  have hbuf : unlines 10 lines ≠ [] := by
    obtain ⟨l, lines, rfl⟩ := List.exists_cons_of_ne_nil hnil
    simp [unlines_cons]
  have hvalid : (⟨some (unlines 10 lines)⟩ : IniFile).isValid = some (unlines 10 lines) := by
    simp [IniFile.isValid, hbuf]
  obtain ⟨h, hhead, hhead', hloc⟩ | ⟨hnone, hloc⟩ :=
    locateSection_first h0 hsec.ne hbr (unlines_not_suffix hsec.ne hsecNl lines) hfirst
      ((unlines 10 lines).length + 1) 0 (by omega) (List.length_pos_iff.mpr hbuf)
      fun i hi => absurd hi (Nat.not_lt_zero i)
  · obtain ⟨head, rest, hdrop, htext⟩ := headerAt_lines hsecNl hnl hhead hhead'
    have hin : ∀ l ∈ head :: rest, l ∈ lines := fun l hl =>
      (List.dropWhile_suffix _).mem (hdrop ▸ hl)
    have hlen : h + 1 < (unlines 10 lines).length := by
      have hle := hhead.2.length_le
      rw [List.length_cons, List.length_append, List.length_drop, List.length_singleton] at hle
      omega
    obtain ⟨n, hnext, hhn, hn, hopens, hno⟩ := locateNext_first h0 (h + 1)
      ((unlines 10 lines).length + 1) (h + 1) (by omega) (by omega) (by omega)
      fun i hsi hi => by omega
    obtain ⟨hsome, hnone⟩ := itemText_eq item hn hopens hno hhn
    obtain ⟨t, hlooked⟩ := itemText_lines hitemNl (hnl head (hin head List.mem_cons_self))
      fun l hl => hnl l (hin l (List.mem_cons_of_mem _ hl))
    rw [← htext] at hlooked
    simp only [IniFile.getString, lookup, sectionLines, hfit, hvalid, hloc, hnext, hdrop,
      Option.bind_eq_bind, Option.bind_some, List.tail_cons]
    obtain ⟨i, hin', hit, hit', hge, hret⟩ | ⟨hno', hret⟩ := locateItem_first h0 hitem.ne hitemNl
      hitemEnd (h + 1) n ((unlines 10 lines).length + 1) (h + 1) (by omega) (by omega) hlen
      fun i hsi hi => by omega
    · rw [hsome i hge hin' hit hit'] at hlooked
      obtain ⟨l, hfind, hl⟩ := Option.map_eq_some_iff.mp hlooked.symm
      have hmem : l ∈ rest := (List.takeWhile_prefix _).mem (List.mem_of_find?_eq_some hfind)
      have hequals : 61 ∈ l := heq l (hin l (List.mem_cons_of_mem _ hmem))
        (by simpa using List.find?_some hfind)
      obtain ⟨e, he, hlt, hvalue⟩ := strstr_equals h0 hl.symm hequals
      simp only [hret, hfind, he, Option.bind_some, lineValue, if_pos hequals, answer, hvalue,
        copyValue_line, if_neg (Nat.not_le.mpr hlt), ge_iff_le]
    · have hfind := Option.map_eq_none_iff.mp (hlooked.symm.trans (hnone hno'))
      simp only [hret, hfind, Option.bind_some, Option.bind_none, answer]
  · simp only [IniFile.getString, lookup, sectionLines, hfit, hvalid, hloc,
      not_headerAt_lines hsecNl hnl hnone, Option.bind_eq_bind, Option.bind_some]
    rfl

/-! ## Files -/

/-- What `GetString` answers depends on the buffer alone. -/
theorem getString_congr {ini ini' : IniFile} (h : ini.isValid = ini'.isValid)
    (sec item szDefault : Bytes) (iValueLen : ℕ) :
    ini.getString sec item szDefault iValueLen = ini'.getString sec item szDefault iValueLen := by
  simp only [IniFile.getString, h]

/-- A file that can be opened and read is in the buffer. -/
theorem new_text {t : Bytes} (hsize : t.length < 2 ^ 31) :
    ∃ ini, IniFile.new (some (Int32.ofNat t.length)) true true t = some ini ∧
      ini.isValid = (⟨some t⟩ : IniFile).isValid := by
  have hint : (Int32.ofNat t.length).toInt = t.length := Int32.toInt_ofNat_of_lt hsize
  by_cases hnil : t = []
  · subst hnil
    exact ⟨⟨none⟩, rfl, rfl⟩
  · have hpos := List.length_pos_iff.mpr hnil
    have hgo : ¬ Int32.ofNat t.length ≤ 0 := by
      rw [Int32.le_iff_toInt_le, hint, Int32.toInt_zero]
      omega
    exact ⟨⟨some t⟩, by simp [IniFile.new, hgo, hint], rfl⟩

/-- The buffer that is valid is the one there is. -/
theorem eq_of_isValid {ini : IniFile} (h : ini.isValid = some buf) : ini = ⟨some buf⟩ := by
  cases ini with
  | mk szBuffer =>
      cases szBuffer with
      | none => cases h
      | some buf' =>
          simp only [IniFile.isValid] at h
          split at h
          · cases h
          · rw [Option.some.inj h]

/-- **`GetString` reads line by line.** A file of some lines that is opened reads as `lookup` says:
the value, or else the default with `E_INI_FILE`. This is so for every section and item whose
names can be written, and every default that fits the array, as long as the file does not begin
with the name of the section itself and the lines of the item have an equals sign. -/
theorem getString_text {lines : List Bytes} (hlines : ∀ l ∈ lines, 0 ∉ l ∧ 10 ∉ l)
    (hsize : (unlines 10 lines).length < 2 ^ 31) :
    ∃ ini, IniFile.new (some (Int32.ofNat (unlines 10 lines).length)) true true
        (unlines 10 lines) = some ini ∧
      ∀ sec item szDefault iValueLen, SectionName sec → ItemName item →
        szDefault.length < iValueLen → ¬ sec <+: unlines 10 lines →
        (∀ l ∈ lines, IsItem item l → 61 ∈ l) →
          ini.getString sec item szDefault iValueLen =
            some (answer szDefault (lookup sec item iValueLen lines)) := by
  obtain ⟨ini, hnew, hvalid⟩ := new_text hsize
  refine ⟨ini, hnew, fun sec item szDefault iValueLen hsec hitem hdef hfirst heq => ?_⟩
  rw [getString_congr hvalid]
  exact getString_lookup hlines hsec hitem hfirst heq hdef

/-- Lines that were not written by `render`. -/
def looseLines : List Bytes :=
  [ascii "; MQ", ascii "[MQ] x", ascii " Port=1", ascii "Port\t =\t 2 ; three\r",
    ascii "[X]", ascii "Port=4"]

theorem getString_text_loose : (∀ l ∈ looseLines, 0 ∉ l ∧ 10 ∉ l) ∧
    (unlines 10 looseLines).length < 2 ^ 31 ∧
    ∃ ini, IniFile.new (some (Int32.ofNat (unlines 10 looseLines).length)) true true
        (unlines 10 looseLines) = some ini ∧
      ini.getString (ascii "MQ") (ascii "Port") (ascii "1") 32 = some (0, some (ascii "2")) ∧
      ini.getString (ascii "MQ") (ascii "IP") (ascii "1") 32 =
        some (eIniFile, some (ascii "1")) := by
  have hlines : ∀ l ∈ looseLines, 0 ∉ l ∧ 10 ∉ l := by decide
  obtain ⟨ini, hnew, hread⟩ := getString_text hlines (by decide)
  refine ⟨hlines, by decide, ini, hnew, ?_, ?_⟩
  · rw [hread _ _ _ _ (by decide) (by decide) (by decide) (by decide) (by decide)]
    decide +kernel
  · rw [hread _ _ _ _ (by decide) (by decide) (by decide) (by decide) (by decide)]
    decide +kernel

/-- A file that begins with the name of the section. -/
example : (⟨some (ascii "MQ\n[MQ]\nPort=1\n")⟩ : IniFile).getString (ascii "MQ") (ascii "Port")
    [] 32 = some (eIniFile, some []) := by decide +kernel

/-- A line of the item without an equals sign gets the value of another section. -/
example : (⟨some (ascii "[MQ]\nPort \n[X]\nq=7\n")⟩ : IniFile).getString (ascii "MQ")
    (ascii "Port") [] 32 = some (0, some (ascii "7")) := by decide +kernel

/-- A search that arrives at the end of the file succeeds with the default. -/
example : (⟨some (ascii "[MQ]\n;Port")⟩ : IniFile).getString (ascii "MQ") (ascii "Port")
    (ascii "1") 32 = some (0, some (ascii "1")) := by decide +kernel

end LibC.Ini
