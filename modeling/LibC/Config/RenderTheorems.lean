/-
LibC.Config.RenderTheorems — what is written into a configuration file is read from it.

`sectionLines_render` and `find_render` find the lines that were written, and
`copyValue_value` follows the loop that copies a value, which undoubles the semicolons.
`getString_render` is the round trip, from the sections through the file and back.

No `sorry`, no `axiom`, no `native_decide`.
-/
import LibC.Config.IniTheorems

namespace LibC.Ini

open LibC.Lib

/-! ## Names -/

/-- The first byte of a kind ends a name. -/
theorem eq_of_stopped {p : UInt8 → Bool} {l l' r : Bytes} {c c' : UInt8} (hl : ∀ a ∈ l, p a = true)
    (hl' : ∀ a ∈ l', p a = true) (hc : p c = false) (hc' : p c' = false)
    (h : l ++ [c] <+: l' ++ c' :: r) : l = l' := by
  obtain ⟨r', hr⟩ := h
  have h1 : (l' ++ c' :: r).takeWhile p = l' := by
    rw [List.takeWhile_append_of_pos hl', List.takeWhile_cons_of_neg (by simp [hc']),
      List.append_nil]
  have h2 : (l ++ [c] ++ r').takeWhile p = l := by
    rw [List.append_assoc, List.singleton_append, List.takeWhile_append_of_pos hl,
      List.takeWhile_cons_of_neg (by simp [hc]), List.append_nil]
  rw [← h1, ← hr, h2]

theorem SectionName.isHeader {sec name : Bytes} (hsec : SectionName sec)
    (hname : SectionName name) : IsHeader sec (91 :: (name ++ [93])) ↔ name = sec := by
  constructor
  · intro h
    have h := (List.cons_prefix_cons.mp h).2
    refine (eq_of_stopped (p := fun c => decide (c ≠ 93)) (r := []) ?_ ?_ rfl rfl h).symm
    · exact fun a ha => decide_eq_true (hsec.plain a ha).2.2.2
    · exact fun a ha => decide_eq_true (hname.plain a ha).2.2.2
  · rintro rfl
    exact List.prefix_rfl

/-- What may follow an item. -/
def isSep (c : UInt8) : Bool := c = 32 ∨ c = 61 ∨ c = 9

theorem ItemName.isSep {name : Bytes} (h : ItemName name) : ∀ c ∈ name, (!isSep c) = true := by
  intro c hc
  obtain ⟨_, _, h1, h2, h3⟩ := h.plain c hc
  simp [Ini.isSep, h1, h2, h3]

theorem ItemName.isItem {item name : Bytes} (hitem : ItemName item) (hname : ItemName name)
    (t : Bytes) : IsItem item (name ++ 61 :: t) ↔ name = item := by
  constructor
  · intro h
    rcases h with h | h | h <;>
      exact (eq_of_stopped (p := fun c => !Ini.isSep c) hitem.isSep hname.isSep rfl rfl h).symm
  · rintro rfl
    exact Or.inr (Or.inl ⟨t, by simp⟩)

theorem ItemName.not_opens {name : Bytes} (h : ItemName name) (t : Bytes) :
    ¬ Opens (name ++ t) := by
  obtain ⟨c, name, rfl⟩ := List.exists_cons_of_ne_nil h.ne
  have hc := (h.start c rfl).1
  simpa [Opens] using Ne.symm hc

theorem not_mem_escape {c : UInt8} (hc : c ≠ 59) {value : Bytes} (h : c ∉ value) :
    c ∉ escape value := by
  intro hin
  obtain ⟨a, ha, ha'⟩ := List.mem_flatMap.mp hin
  split at ha'
  · exact hc (by simpa using ha')
  · obtain rfl : c = a := by simpa using ha'
    exact h ha

/-! ## Lines -/

/-- A line that is written is one line, and begins no section. -/
theorem IniLine.Ok.line {l : IniLine} (h : l.Ok) :
    0 ∉ l.render ∧ 10 ∉ l.render ∧ ¬ Opens l.render := by
  cases l with
  | item name value =>
      obtain ⟨hname, hvalue⟩ := h
      have hn : ∀ c ∈ name, c ≠ 0 ∧ c ≠ 10 := fun c hc =>
        ⟨(hname.plain c hc).1, (hname.plain c hc).2.1⟩
      have h10 : (10 : UInt8) ∉ escape value :=
        not_mem_escape (by decide) fun hin => (hvalue.plain 10 hin).2.1 rfl
      have h0 : (0 : UInt8) ∉ escape value :=
        not_mem_escape (by decide) fun hin => (hvalue.plain 0 hin).1 rfl
      refine ⟨?_, ?_, hname.not_opens _⟩
      · simp only [IniLine.render, List.mem_append, List.mem_cons]
        rintro (hin | hin | hin | hin)
        · exact (hn 0 hin).1 rfl
        · exact absurd hin (by decide)
        · exact absurd hin (by decide)
        · exact h0 hin
      · simp only [IniLine.render, List.mem_append, List.mem_cons]
        rintro (hin | hin | hin | hin)
        · exact (hn 10 hin).2 rfl
        · exact absurd hin (by decide)
        · exact absurd hin (by decide)
        · exact h10 hin
  | comment text =>
      refine ⟨?_, ?_, by simp [IniLine.render, Opens]⟩
      · simp only [IniLine.render, List.mem_cons]
        rintro (hin | hin)
        · exact absurd hin (by decide)
        · exact (h 0 hin).1 rfl
      · simp only [IniLine.render, List.mem_cons]
        rintro (hin | hin)
        · exact absurd hin (by decide)
        · exact (h 10 hin).2 rfl

theorem fileLines_cons (s : IniSection) (secs : List IniSection) :
    fileLines (s :: secs) = (91 :: (s.name ++ [93])) :: (s.lines.map IniLine.render ++
      fileLines secs) := by
  simp [fileLines, IniSection.render]

/-- The first line of a file is a header. -/
theorem opens_fileLines {l : Bytes} : ∀ {secs : List IniSection},
    (fileLines secs).head? = some l → Opens l
  | s :: secs, h => by
      rw [fileLines_cons, List.head?_cons] at h
      obtain rfl := Option.some.inj h
      simp [Opens]

/-- The lines of a file. -/
theorem mem_fileLines {secs : List IniSection} {l : Bytes} (h : l ∈ fileLines secs) :
    ∃ s ∈ secs, l = 91 :: (s.name ++ [93]) ∨ ∃ l' ∈ s.lines, l = l'.render := by
  obtain ⟨s, hs, hl⟩ := List.mem_flatMap.mp h
  rcases List.mem_cons.mp hl with hl | hl
  · exact ⟨s, hs, Or.inl hl⟩
  · obtain ⟨l', hl', heq⟩ := List.mem_map.mp hl
    exact ⟨s, hs, Or.inr ⟨l', hl', heq.symm⟩⟩

/-- Each of them is one line. -/
theorem line_of_mem {secs : List IniSection} (hok : ∀ s ∈ secs, s.Ok) :
    ∀ l ∈ fileLines secs, 0 ∉ l ∧ 10 ∉ l := by
  intro l hl
  obtain ⟨s, hs, rfl | ⟨l', hl', rfl⟩⟩ := mem_fileLines hl
  · have hname := (hok s hs).name.plain
    have h0 : (0 : UInt8) ∉ s.name := fun hin => (hname 0 hin).1 rfl
    have h10 : (10 : UInt8) ∉ s.name := fun hin => (hname 10 hin).2.1 rfl
    simp [h0, h10]
  · obtain ⟨h0, h10, _⟩ := ((hok s hs).lines l' hl').line
    exact ⟨h0, h10⟩

/-- A line of an item has an equals sign. -/
theorem equals_of_isItem {item : Bytes} (hitem : ItemName item) {secs : List IniSection} :
    ∀ l ∈ fileLines secs, IsItem item l → 61 ∈ l := by
  intro l hl hit
  obtain ⟨c, name, rfl⟩ := List.exists_cons_of_ne_nil hitem.ne
  obtain ⟨hc, hc'⟩ := hitem.start c rfl
  obtain ⟨s, _, rfl | ⟨l', _, rfl⟩⟩ := mem_fileLines hl
  · -- an item does not begin with a bracket
    rcases hit with hit | hit | hit <;> exact absurd (List.cons_prefix_cons.mp hit).1 hc
  · cases l' with
    | item name value => simp [IniLine.render]
    | comment text =>
        -- nor with a semicolon
        rcases hit with hit | hit | hit <;> exact absurd (List.cons_prefix_cons.mp hit).1 hc'

/-- The file does not begin with the name of a section. -/
theorem not_prefix_render {sec : Bytes} (hsec : SectionName sec) (secs : List IniSection) :
    ¬ sec <+: render secs := by
  obtain ⟨c, name, rfl⟩ := List.exists_cons_of_ne_nil hsec.ne
  have hc := (hsec.plain c List.mem_cons_self).2.2.1
  cases secs with
  | nil => simp [render, fileLines, unlines]
  | cons s secs =>
      rw [render, fileLines_cons, unlines_cons]
      exact fun hp => hc (List.cons_prefix_cons.mp hp).1

/-- A file with a section is not empty. -/
theorem render_ne {secs : List IniSection} (hne : secs ≠ []) : render secs ≠ [] := by
  obtain ⟨s, secs, rfl⟩ := List.exists_cons_of_ne_nil hne
  rw [render, fileLines_cons, unlines_cons]
  exact List.cons_ne_nil _ _

/-- The section that is found is the first one of its name. -/
theorem sectionLines_render {sec : Bytes} (hsec : SectionName sec) {secs : List IniSection}
    (h : ∀ s ∈ secs, s.Ok) : sectionLines sec (fileLines secs) =
      ((secs.find? fun s => s.name = sec).map fun s => s.lines.map IniLine.render).getD [] := by
  induction secs with
  | nil => rfl
  | cons s secs ih =>
      have hs := h s List.mem_cons_self
      have hno : ∀ l ∈ s.lines.map IniLine.render, ¬ Opens l := by
        intro l hl
        obtain ⟨l', hl', rfl⟩ := List.mem_map.mp hl
        exact (hs.lines l' hl').line.2.2
      rw [sectionLines, fileLines_cons]
      by_cases hname : s.name = sec
      · have hend : (fileLines secs).takeWhile (fun l => ¬ Opens l) = [] := by
          cases hlines : fileLines secs with
          | nil => rfl
          | cons l rest =>
              have hhead : (fileLines secs).head? = some l := by rw [hlines, List.head?_cons]
              exact List.takeWhile_cons_of_neg (by simpa using opens_fileLines hhead)
        rw [List.dropWhile_cons_of_neg (by simpa using (hsec.isHeader hs.name).mpr hname),
          List.tail_cons, List.takeWhile_append_of_pos (by simpa using hno), hend,
          List.find?_cons_of_pos (by simpa using hname)]
        simp
      · have hheader : ∀ l ∈ s.lines.map IniLine.render, ¬ IsHeader sec l := fun l hl hhead =>
          hno l hl ((List.cons_prefix_cons.mpr ⟨rfl, List.nil_prefix⟩).trans hhead)
        rw [List.dropWhile_cons_of_pos (by simpa using mt (hsec.isHeader hs.name).mp hname),
          List.dropWhile_append_of_pos (by simpa using hheader),
          List.find?_cons_of_neg (by simpa using hname)]
        exact ih fun s' hs' => h s' (List.mem_cons_of_mem _ hs')

/-- The line of the item that is found is the first one in the section. -/
theorem find_render {item : Bytes} (hitem : ItemName item) {lines : List IniLine}
    (h : ∀ l ∈ lines, l.Ok) : (lines.map IniLine.render).find? (fun l => IsItem item l) =
      (valueOf item lines).map fun value => item ++ 61 :: 32 :: escape value := by
  induction lines with
  | nil => rfl
  | cons l lines ih =>
      have ih := ih fun l' hl' => h l' (List.mem_cons_of_mem _ hl')
      cases l with
      | comment text =>
          have hno : ¬ IsItem item (IniLine.comment text).render := by
            obtain ⟨c, name, rfl⟩ := List.exists_cons_of_ne_nil hitem.ne
            have hc := (hitem.start c rfl).2
            rintro (hp | hp | hp) <;> exact hc (List.cons_prefix_cons.mp hp).1
          rw [List.map_cons, List.find?_cons_of_neg (by simpa using hno), valueOf]
          exact ih
      | item name value =>
          obtain ⟨hname, _⟩ : ItemName name ∧ Value value := h _ List.mem_cons_self
          have hiff := hitem.isItem hname (32 :: escape value)
          rw [List.map_cons, valueOf, IniLine.render]
          by_cases heq : name = item
          · rw [List.find?_cons_of_pos (by simpa using hiff.mpr heq), if_pos heq, heq]
            rfl
          · rw [List.find?_cons_of_neg (by simpa using mt hiff.mp heq), if_neg heq]
            exact ih

/-- A value that is found was written. -/
theorem valueOf_ok {item value : Bytes} {lines : List IniLine} (h : ∀ l ∈ lines, l.Ok)
    (hv : valueOf item lines = some value) : Value value := by
  induction lines with
  | nil => cases hv
  | cons l lines ih =>
      have ih := ih fun l' hl' => h l' (List.mem_cons_of_mem _ hl')
      cases l with
      | comment text => exact ih hv
      | item name v =>
          rw [valueOf] at hv
          split at hv
          · obtain rfl := Option.some.inj hv
            exact (h _ List.mem_cons_self : ItemName name ∧ Value v).2
          · exact ih hv

/-! ## Values -/

/-- The semicolons are undoubled. -/
theorem copyValue_escape (iValueLen : ℕ) : ∀ (value : Bytes) (n : ℕ) (out : Bytes),
    (∀ c ∈ value, c ≠ 0 ∧ c ≠ 10 ∧ c ≠ 13) → 0 < n → (out = [] → ∀ c ∈ value.head?, ¬ isBlank c) →
      copyValue iValueLen (escape value) n out =
        out ++ value.take (iValueLen - 1 - out.length)
  | [], n, out, _, _, _ => by
      unfold copyValue
      simp [escape]
  | c :: value, n, out, hplain, hn, hfirst => by
      obtain ⟨h0, h10, h13⟩ := hplain c List.mem_cons_self
      have hrest := copyValue_escape iValueLen value
      have hplain' : ∀ c ∈ value, c ≠ 0 ∧ c ≠ 10 ∧ c ≠ 13 := fun a ha =>
        hplain a (List.mem_cons_of_mem _ ha)
      by_cases hroom : out.length < iValueLen - 1
      · have hlen : iValueLen - 1 - out.length = iValueLen - 1 - (out ++ [c]).length + 1 := by
          rw [List.length_append, List.length_singleton]
          omega
        have hput : out ++ (c :: value).take (iValueLen - 1 - out.length) =
            (out ++ [c]) ++ value.take (iValueLen - 1 - (out ++ [c]).length) := by
          rw [hlen, List.take_succ_cons, List.append_assoc, List.singleton_append]
        have hsome : out ++ [c] = [] → ∀ a ∈ value.head?, ¬ isBlank a := fun h => by simp at h
        have hblank : ¬ ((c = 32 ∨ c = 9) ∧ out.length = 0) := by
          rintro ⟨hc, hout⟩
          have hb := hfirst (List.length_eq_zero_iff.mp hout) c rfl
          rcases hc with rfl | rfl <;> exact hb rfl
        rw [hput]
        by_cases hsemi : c = 59
        · subst hsemi
          have hesc : escape (59 :: value) = 59 :: 59 :: escape value := by simp [escape]
          rw [hesc, copyValue.eq_def]
          simp only [hroom, ne_eq, h13, h10, h0, not_false_eq_true, and_self, if_true, hblank,
            if_false, gt_iff_lt, hn]
          exact hrest (n + 2) (out ++ [59]) hplain' (by omega) hsome
        · have hesc : escape (c :: value) = c :: escape value := by
            simp [escape, hsemi]
          rw [hesc, copyValue.eq_def]
          simp only [hroom, ne_eq, h13, h10, h0, not_false_eq_true, and_self, if_true, hblank,
            if_false, hsemi]
          exact hrest (n + 1) (out ++ [c]) hplain' (by omega) hsome
      · have hzero : iValueLen - 1 - out.length = 0 := by omega
        rw [hzero, List.take_zero, List.append_nil]
        obtain ⟨a, t, hat⟩ : ∃ a t, escape (c :: value) = a :: t := by
          by_cases hsemi : c = 59 <;> simp [escape, hsemi]
        rw [hat, copyValue.eq_def]
        simp only [hroom, false_and, if_false]

/-- A value is read as it was written, as far as the array goes. -/
theorem copyValue_value {value : Bytes} (h : Value value) (iValueLen : ℕ) :
    copyValue iValueLen (32 :: escape value) 0 [] = value.take (iValueLen - 1) := by
  rw [copyValue.eq_def]
  by_cases hroom : 0 < iValueLen - 1
  · simp only [List.length_nil, hroom, true_and, ne_eq]
    have hstep := copyValue_escape iValueLen value 1 [] h.plain (by omega)
      fun _ c hc => by simp [h.first c hc]
    simpa using hstep
  · have hzero : iValueLen - 1 = 0 := by omega
    simp [hzero]

/-- A value that fits is not trimmed. -/
theorem trimString_value {value : Bytes} (h : Value value) : trimString value = value := by
  have hright : value.rdropWhile isBlank = value :=
    List.rdropWhile_eq_self_iff.mpr fun hne => by
      have hlast := h.last (value.getLast hne) (List.getLast?_eq_some_getLast hne)
      simp [hlast]
  rw [trimString, hright]
  cases value with
  | nil => rfl
  | cons c value => exact List.dropWhile_cons_of_neg (by simp [h.first c rfl])

/-- The value of a line that is written. -/
theorem lineValue_render {item value : Bytes} (hitem : ItemName item) (hvalue : Value value)
    (iValueLen : ℕ) : lineValue iValueLen (item ++ 61 :: 32 :: escape value) =
      some (trimString (value.take (iValueLen - 1))) := by
  have hdrop : (item ++ 61 :: 32 :: escape value).dropWhile (fun c => decide (c ≠ 61)) =
      61 :: 32 :: escape value := by
    rw [List.dropWhile_append_of_pos fun a ha => decide_eq_true (hitem.plain a ha).2.2.1,
      List.dropWhile_cons_of_neg (by simp)]
  rw [lineValue, if_pos (by simp), hdrop, List.tail_cons, copyValue_value hvalue]

/-! ## The file -/

/-- A file that was written is looked up as it was meant. -/
theorem lookup_render {sec item : Bytes} (hsec : SectionName sec) (hitem : ItemName item)
    {secs : List IniSection} (hok : ∀ s ∈ secs, s.Ok) (iValueLen : ℕ) :
    lookup sec item iValueLen (fileLines secs) =
      (find sec item secs).map fun value => trimString (value.take (iValueLen - 1)) := by
  rw [lookup, sectionLines_render hsec hok, find]
  cases hs : secs.find? fun s => s.name = sec with
  | none => rfl
  | some s =>
      have hlines := (hok s (List.mem_of_find?_eq_some hs)).lines
      simp only [Option.map_some, Option.getD_some, Option.bind_some, find_render hitem hlines]
      cases hv : valueOf item s.lines with
      | none => rfl
      | some value => exact lineValue_render hitem (valueOf_ok hlines hv) iValueLen

/-- What is written into a configuration file is what `GetString` reads from it. -/
theorem getString_written {sec item : Bytes} {iValueLen : ℕ} (hsec : SectionName sec)
    (hitem : ItemName item) {secs : List IniSection} (szDefault : Bytes)
    (hdef : szDefault.length < iValueLen) (hok : ∀ s ∈ secs, s.Ok) :
    (⟨some (render secs)⟩ : IniFile).getString sec item szDefault iValueLen =
      some (answer szDefault ((find sec item secs).map fun value =>
        trimString (value.take (iValueLen - 1)))) := by
  rw [render, getString_lookup (line_of_mem hok) hsec hitem (not_prefix_render hsec secs)
    (equals_of_isItem hitem) hdef, lookup_render hsec hitem hok]

/-- **The round trip.** A file that was written from some sections and is opened reads as it was
meant, for every section and item whose names can be written and every default that fits the
array: as the first value of the item in the first section of the name, as far as it fits the
array, and otherwise as the default with `E_INI_FILE`. -/
theorem getString_render {secs : List IniSection} (hok : ∀ s ∈ secs, s.Ok)
    (hsize : (render secs).length < 2 ^ 31) :
    ∃ ini, IniFile.new (some (Int32.ofNat (render secs).length)) true true (render secs) =
        some ini ∧
      ∀ sec item szDefault iValueLen, SectionName sec → ItemName item →
        szDefault.length < iValueLen → ini.getString sec item szDefault iValueLen =
          some (answer szDefault ((find sec item secs).map fun value =>
            trimString (value.take (iValueLen - 1)))) := by
  obtain ⟨ini, hnew, hvalid⟩ := new_text hsize
  refine ⟨ini, hnew, fun sec item szDefault iValueLen hsec hitem hdef => ?_⟩
  rw [getString_congr hvalid]
  exact getString_written hsec hitem szDefault hdef hok

/-- Two sections, and a value with a semicolon. -/
def twoSections : List IniSection :=
  [⟨ascii "SERVER", [.item (ascii "Port") (ascii "20309"), .comment (ascii "IP=1")]⟩,
    ⟨ascii "MQ", [.item (ascii "SvrNum") (ascii "2"), .item (ascii "PushAddr1") (ascii "a;b"),
      .item (ascii "PushAddr2") (ascii "c"), .item (ascii "PullAddr") (ascii "d")]⟩]

theorem getString_render_two : (∀ s ∈ twoSections, s.Ok) ∧
    ∃ ini, IniFile.new (some (Int32.ofNat (render twoSections).length)) true true
        (render twoSections) = some ini ∧
      ini.getString (ascii "MQ") (ascii "PushAddr1") [] 2048 = some (0, some (ascii "a;b")) ∧
      ini.getString (ascii "SERVER") (ascii "IP") (ascii "x") 2048 =
        some (eIniFile, some (ascii "x")) := by
  have hok : ∀ s ∈ twoSections, s.Ok := by decide
  obtain ⟨ini, hopen, hread⟩ := getString_render hok (by decide +kernel)
  refine ⟨hok, ini, hopen, ?_, ?_⟩
  · rw [hread _ _ _ _ (by decide) (by decide) (by decide)]
    decide
  · rw [hread _ _ _ _ (by decide) (by decide) (by decide)]
    decide

end LibC.Ini
