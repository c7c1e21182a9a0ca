/-
LibC.Server.LoadItemTheorems — what a load does, for every file.

`checkDbFileAndLoad_items` separates reading from acting; the rest is about lists
of items. A member that is there keeps its score, and one that is not gets the
first score the file has for it (`load_lookup`): a load never overwrites, where
`ProcessDbSet` always does. So loading a file again changes nothing
(`load_again`). And since a load only inserts, the tables it makes are right
whatever the file holds (`load_sound`): the halves agree, and `lenth_`, which goes
wrong with the first `Delete`, is the number of members.

No `sorry`, no `axiom`, no `native_decide`.
-/
import LibC.Server.LeaderboardTheorems
import LibC.Server.LoadItems

namespace LibC

open LibC.Lib

variable {α : Type} [LinearOrder α] [Neg α] [One α]

/-! ## Reading and acting -/

/-- A record. -/
theorem loadRecord_item (c : Codecs α) (heights : ℕ → Lvl) (type : MsgNodeType) (s : Loader α) :
    loadRecord c heights type s = (s.shelf.take heights (itemOf c type s.file)).map fun sh =>
      ⟨{ s.db with dbDict := sh.dict }, sh.cur, (loadRawString s.file).2, sh.draws,
        s.reads ++ [(type, (loadRawString s.file).1)]⟩ := by
  have hfile : ∀ {M : Type} (c : Codec M),
      (loadObj c s.file).2 = (loadRawString s.file).2 := by
    intro M c
    unfold loadObj
    split <;> simp_all
  cases type with
  | version => simp only [loadRecord, Loader.loadObj, hfile]; rfl
  | db => simp only [loadRecord, Loader.loadObj, hfile]; rfl
  | table =>
      simp only [loadRecord, Loader.loadObj, itemOf, hfile]
      cases (loadObj c.table s.file).1 <;> rfl
  | key =>
      simp only [loadRecord, Loader.loadObj, itemOf, hfile]
      cases (loadObj c.key s.file).1 with
      | none => rfl
      | some obj =>
          simp only [Shelf.take, Loader.shelf]
          cases s.curSset with
          | none => rfl
          | some cur =>
              simp only [Option.bind_eq_bind]
              cases s.db.dbDict.find cur with
              | none => rfl
              | some sset =>
                  simp only [Option.bind_some]
                  cases insertAll heights (obj.key.zip obj.val) sset s.draws <;> rfl

/-- The loop: the items of the file, one after the other. -/
theorem loadLoop_items (c : Codecs α) (heights : ℕ → Lvl) : ∀ (fuel : ℕ) (s : Loader α),
    s.file.length < fuel →
    ((loadLoop c heights fuel s).map fun r => (r.1, r.2.db, r.2.shelf)) =
      (run (Shelf.take heights) (itemsOf c fuel s.file).2 s.shelf).map fun sh =>
        ((itemsOf c fuel s.file).1, { s.db with dbDict := sh.dict }, sh)
  | 0, s, hlt => absurd hlt (Nat.not_lt_zero _)
  | fuel + 1, s, hlt => by
      cases hf : s.file with
      | nil => simp [loadLoop, itemsOf, hf, loadType, fileRead, Loader.shelf]
      | cons b f =>
          cases ht : MsgNodeType.ofByte? b with
          | none => simp [loadLoop, itemsOf, hf, loadType_cons, ht, Loader.shelf]
          | some type =>
              rw [hf, List.length_cons] at hlt
              have hle := loadRawString_length_le f
              have hrec := loadRecord_item c heights type { s with file := f }
              have hshelf : Loader.shelf { s with file := f } = s.shelf := rfl
              rw [hshelf] at hrec
              simp only [loadLoop, itemsOf, hf, loadType_cons, ht, Option.bind_eq_bind, hrec, run]
              cases htake : s.shelf.take heights (itemOf c type f) with
              | none => rfl
              | some sh =>
                  simp only [Option.map_some, Option.bind_some]
                  exact loadLoop_items c heights fuel _ (by simp only; omega)

/-- **Reading and acting.** A load is the items of the file, in order, on the tables there are. -/
theorem checkDbFileAndLoad_items (c : Codecs α) (heights : ℕ → Lvl) (file : Bytes) (d : Db α) :
    ((checkDbFileAndLoad c heights (some file) d).map fun r => (r.1, r.2.db)) =
      (run (Shelf.take heights) (itemsOf c (file.length + 1) file).2 ⟨d.dbDict, none, 0⟩).map
        fun sh => ((itemsOf c (file.length + 1) file).1,
          { d with dbDict := sh.dict, isLoading := false }) := by
  have h := loadLoop_items c heights (file.length + 1)
    ⟨{ d with isLoading := true }, none, file, 0, []⟩ (Nat.lt_succ_self _)
  have hmap := congrArg (Option.map fun r : Int × Db α × Shelf α =>
    (r.1, { r.2.1 with isLoading := false })) h
  simp only [Option.map_map, Function.comp_def, Loader.shelf] at hmap
  rw [← hmap, checkDbFileAndLoad]
  simp only [Option.bind_eq_bind]
  cases loadLoop c heights (file.length + 1) ⟨{ d with isLoading := true }, none, file, 0, []⟩ <;>
    rfl

/-! ## What is loaded -/

omit [LinearOrder α] [Neg α] [One α] in
theorem firstSet_append (key data : Bytes) (es es' : List (Entry α)) :
    firstSet key data (es ++ es') = (firstSet key data es).or (firstSet key data es') := by
  rw [firstSet, List.find?_append, Option.map_or]
  rfl

omit [Neg α] [One α] in
/-- The members there are stay; of the others the first one counts. -/
theorem insertAll_dict (heights : ℕ → Lvl) : ∀ (ms : List (α × Bytes)) (s s' : SortSet α Bytes)
    (n n' : ℕ), insertAll heights ms s n = some (s', n') → ∀ q,
      s'.dict q = (s.dict q).or ((ms.find? fun m => m.2 = q).map Prod.fst)
  | [], s, s', n, n', h, q => by
      obtain ⟨rfl, _⟩ := Prod.mk.inj (Option.some.inj h)
      rw [List.find?_nil, Option.map_none, Option.or_none]
  | (score, data) :: ms, s, s', n, n', h, q => by
      simp only [insertAll, Option.bind_eq_bind, Option.bind_eq_some_iff] at h
      obtain ⟨⟨ret, s1⟩, hins, h⟩ := h
      rw [insertAll_dict heights ms s1 s' _ n' h q, List.find?_cons]
      cases hd : s.dict data with
      | some old =>
          -- the member is there
          simp only [SortSet.insert, hd, Option.some.injEq, Prod.mk.injEq] at hins
          obtain ⟨_, rfl⟩ := hins
          by_cases hq : data = q
          · rw [← hq, hd, Option.some_or, Option.some_or]
          · simp only [hq, decide_false]
      | none =>
          rw [SortSet.insert_dict hd hins]
          by_cases hq : data = q
          · simp [← hq, hd]
          · simp [hq, Ne.symm hq]

namespace Shelf

/-- The score a member has. -/
def lookup (sh : Shelf α) (key data : Bytes) : Option α :=
  (sh.dict.find key).bind fun s => s.dict data

/-- The tables are sorted sets, and `cur_sset` is one of them. -/
structure Ok (sh : Shelf α) : Prop where
  tables : ∀ key s, sh.dict.find key = some s → TableOk s
  cur : ∀ cur, sh.cur = some cur → ∃ s, sh.dict.find cur = some s

/-- The key of `cur_sset` after an item. -/
def curAfter (cur : Option Bytes) : Item α → Option Bytes
  | .table key => some key
  | _ => cur

/-- Acting on an item. -/
theorem Ok.take {sh : Shelf α} (h : sh.Ok) (heights : ℕ → Lvl) (item : Item α) :
    ∃ sh', sh.take heights item = some sh' ∧ sh'.Ok ∧ sh'.cur = curAfter sh.cur item ∧
      ∀ key data, sh'.lookup key data =
        (sh.lookup key data).or (firstSet key data (entriesOf sh.cur [item])) := by
  have hnone : ∀ key data, sh.lookup key data =
      (sh.lookup key data).or (firstSet key data ([] : List (Entry α))) := fun key data => by
    rw [firstSet, List.find?_nil, Option.map_none, Option.or_none]
  cases item with
  | skip => exact ⟨sh, rfl, h, rfl, hnone⟩
  | table key =>
      refine ⟨{ sh with dict := Db.openTable key sh.dict, cur := some key }, rfl,
        ⟨fun q s hs => ?_, fun cur hcur => ?_⟩, rfl, fun q data => ?_⟩
      · rw [find_openTable] at hs
        split at hs
        · obtain rfl := Option.some.inj hs
          cases hf : sh.dict.find key with
          | none => exact tableOk_new
          | some s0 => exact h.tables key s0 hf
        · exact h.tables q s hs
      · obtain rfl := Option.some.inj hcur
        exact ⟨_, by rw [find_openTable, if_pos rfl]⟩
      · have hlook : lookup { sh with dict := Db.openTable key sh.dict, cur := some key } q data =
            sh.lookup q data := by
          simp only [lookup, find_openTable]
          split
          · next hq =>
              rw [hq]
              cases sh.dict.find key <;> rfl
          · rfl
        rw [hlook]
        exact hnone q data
  | members ms =>
      cases hcur : sh.cur with
      | none => exact ⟨sh, by simp [Shelf.take, hcur], h, hcur, hnone⟩
      | some cur =>
          obtain ⟨s, hf⟩ := h.cur cur hcur
          obtain ⟨s', n', hall, hok⟩ := insertAll_ok heights ms s sh.draws (h.tables cur s hf)
          have hfind : ∀ q, (sh.dict.modify cur fun _ => s').find q =
              if q = cur then some s' else sh.dict.find q := fun q => by
            rw [Dict.find_modify]
            split
            · next hq => rw [hq, hf, Option.map_some]
            · rfl
          refine ⟨{ sh with dict := sh.dict.modify cur fun _ => s', draws := n' },
            by simp [Shelf.take, hcur, hf, hall], ⟨fun q t ht => ?_, fun q hq => ?_⟩, hcur,
            fun q data => ?_⟩
          · simp only [hfind] at ht
            split at ht
            · obtain rfl := Option.some.inj ht
              exact hok
            · exact h.tables q t ht
          · obtain ⟨t, ht⟩ := h.cur q hq
            simp only [hfind]
            split
            · exact ⟨s', rfl⟩
            · exact ⟨t, ht⟩
          · have hfirst : firstSet q data (entriesOf (some cur) [Item.members ms]) =
                if q = cur then (ms.find? fun m => m.2 = data).map Prod.fst else none := by
              rw [entriesOf, entriesOf, List.append_nil, firstSet, List.find?_map, Option.map_map]
              by_cases hq : q = cur
              · simp only [hq, if_true, Function.comp_def, true_and]
              · simp only [Ne.symm hq, if_neg hq, Function.comp_def, false_and, decide_false]
                rw [List.find?_eq_none.mpr fun _ _ => Bool.false_ne_true, Option.map_none]
            rw [hfirst]
            simp only [lookup, hfind]
            by_cases hq : q = cur
            · rw [if_pos hq, if_pos hq, hq, hf, Option.bind_some, Option.bind_some,
                insertAll_dict heights ms s s' _ _ hall data]
            · rw [if_neg hq, if_neg hq, Option.or_none]

end Shelf

omit [LinearOrder α] [Neg α] [One α] in
theorem entriesOf_cons (cur : Option Bytes) (item : Item α) (items : List (Item α)) :
    entriesOf cur (item :: items) =
      entriesOf cur [item] ++ entriesOf (Shelf.curAfter cur item) items := by
  cases item with
  | members ms => cases cur <;> simp [entriesOf, Shelf.curAfter]
  | _ => simp [entriesOf, Shelf.curAfter]

/-- Acting on some items. -/
theorem Shelf.Ok.takeAll (heights : ℕ → Lvl) : ∀ (items : List (Item α)) {sh : Shelf α}, sh.Ok →
    ∃ sh', run (Shelf.take heights) items sh = some sh' ∧ sh'.Ok ∧
      ∀ key data, sh'.lookup key data =
        (sh.lookup key data).or (firstSet key data (entriesOf sh.cur items))
  | [], sh, h => ⟨sh, rfl, h, fun key data => by
      rw [entriesOf, firstSet, List.find?_nil, Option.map_none, Option.or_none]⟩
  | item :: items, sh, h => by
      obtain ⟨sh1, htake, h1, hcur, hlook1⟩ := h.take heights item
      obtain ⟨sh', hrun, h', hlook⟩ := Shelf.Ok.takeAll heights items h1
      refine ⟨sh', run_cons.mpr ⟨sh1, htake, hrun⟩, h', fun key data => ?_⟩
      rw [hlook, hlook1, hcur, entriesOf_cons sh.cur item items, firstSet_append, Option.or_assoc]

/-- **A load never overwrites.** Whatever the database has been through, every file can be loaded
into it. A member that is there keeps its score, and one that is not gets the first one the file
has for it. -/
theorem load_lookup (c : Codecs α) (ops : List (DbOp α)) (heights : ℕ → Lvl) (file : Bytes) :
    ∃ d ret s', run (DbOp.step c) ops Db.new = some d ∧
      checkDbFileAndLoad c heights (some file) d = some (ret, s') ∧
      ∀ key data, s'.db.lookup key data =
        (d.lookup key data).or (firstSet key data (fileEntries c file)) := by
  obtain ⟨d, hrun0, h⟩ := run_ok c ops
  obtain ⟨ret, s', hload, _⟩ := checkDbFileAndLoad_ok c heights (some file) h
  have hitems := checkDbFileAndLoad_items c heights file d
  have h0 : Shelf.Ok ⟨d.dbDict, none, 0⟩ := ⟨h, fun _ hc => nomatch hc⟩
  obtain ⟨sh, hrun, _, hlook⟩ := h0.takeAll heights (itemsOf c (file.length + 1) file).2
  simp only [hload, hrun, Option.map_some, Option.some.injEq, Prod.mk.injEq] at hitems
  exact ⟨d, ret, s', hrun0, hload, fun key data => by rw [hitems.2]; exact hlook key data⟩

/-! ## Loading again -/

/-- Every table of `E` is in `D`, with at least its members. -/
def Covers (D E : Dict Bytes (SortSet α Bytes)) : Prop :=
  ∀ key s, E.find key = some s → ∃ t, D.find key = some t ∧ ∀ m, s.dict m ≠ none → t.dict m ≠ none

omit [LinearOrder α] [Neg α] [One α] in
theorem covers_refl (D : Dict Bytes (SortSet α Bytes)) : Covers D D :=
  fun _ s hs => ⟨s, hs, fun _ h => h⟩

omit [LinearOrder α] [Neg α] [One α] in
theorem Covers.trans {D E F : Dict Bytes (SortSet α Bytes)} (h : Covers D E) (h' : Covers E F) :
    Covers D F := by
  intro key s hs
  obtain ⟨t, ht, hst⟩ := h' key s hs
  obtain ⟨u, hu, htu⟩ := h key t ht
  exact ⟨u, hu, fun m hm => htu m (hst m hm)⟩

/-- What has been loaded stays. -/
theorem Shelf.take_covers {heights : ℕ → Lvl} {item : Item α} {sh sh' : Shelf α}
    (h : sh.take heights item = some sh') : Covers sh'.dict sh.dict := by
  cases item with
  | skip =>
      obtain rfl := Option.some.inj h
      exact covers_refl _
  | table key =>
      obtain rfl := Option.some.inj h
      intro q s hs
      refine ⟨s, ?_, fun _ hm => hm⟩
      show (Db.openTable key sh.dict).find q = some s
      rw [find_openTable]
      split
      · next hq => rw [← hq, hs, Option.getD_some]
      · exact hs
  | members ms =>
      cases hcur : sh.cur with
      | none =>
          simp only [Shelf.take, hcur, Option.some.injEq] at h
          rw [h]
          exact covers_refl _
      | some cur =>
          simp only [Shelf.take, hcur, Option.bind_eq_bind, Option.bind_eq_some_iff,
            Option.some.injEq] at h
          obtain ⟨s0, hf, ⟨s1, n1⟩, hall, rfl⟩ := h
          intro q s hs
          simp only [Dict.find_modify, hs, Option.map_some]
          split
          · next hq =>
              rw [hq, hf] at hs
              obtain rfl := Option.some.inj hs
              refine ⟨s1, rfl, fun m hm => ?_⟩
              rw [insertAll_dict heights ms s0 s1 _ n1 hall]
              cases hd : s0.dict m with
              | none => exact absurd hd hm
              | some key => exact Option.some_ne_none key
          · exact ⟨s, rfl, fun _ hm => hm⟩

omit [Neg α] [One α] in
/-- Members that are all there are not inserted. -/
theorem insertAll_same (heights : ℕ → Lvl) (n : ℕ) {t : SortSet α Bytes} :
    ∀ ms : List (α × Bytes), (∀ m ∈ ms, t.dict m.2 ≠ none) → insertAll heights ms t n = some (t, n)
  | [], _ => rfl
  | (score, data) :: ms, h => by
      obtain ⟨old, hd⟩ := Option.ne_none_iff_exists'.mp (h (score, data) List.mem_cons_self)
      have hrest := insertAll_same heights n ms fun m hm => h m (List.mem_cons_of_mem _ hm)
      simp [insertAll, SortSet.insert, hd, hrest]

/-- An item that has been acted on has no effect on tables with what it has added. -/
theorem Shelf.take_same {heights : ℕ → Lvl} {item : Item α} {sh sh' : Shelf α}
    (h : sh.take heights item = some sh') {D : Dict Bytes (SortSet α Bytes)}
    (hD : Covers D sh'.dict) (heights' : ℕ → Lvl) (n : ℕ) :
    Shelf.take heights' item ⟨D, sh.cur, n⟩ = some ⟨D, sh'.cur, n⟩ := by
  cases item with
  | skip =>
      obtain rfl := Option.some.inj h
      rfl
  | table key =>
      obtain rfl := Option.some.inj h
      obtain ⟨t, ht, _⟩ := hD key ((sh.dict.find key).getD SortSet.new)
        (by rw [find_openTable, if_pos rfl])
      simp only [Shelf.take, Db.openTable, ht]
  | members ms =>
      cases hcur : sh.cur with
      | none =>
          simp only [Shelf.take, hcur, Option.some.injEq] at h
          rw [← h, hcur]
          rfl
      | some cur =>
          simp only [Shelf.take, hcur, Option.bind_eq_bind, Option.bind_eq_some_iff,
            Option.some.injEq] at h
          obtain ⟨s0, hf, ⟨s1, n1⟩, hall, rfl⟩ := h
          obtain ⟨t, ht, hst⟩ := hD cur s1 (by rw [Dict.find_modify, if_pos rfl, hf]; rfl)
          have hmem : ∀ m ∈ ms, t.dict m.2 ≠ none := fun m hm => hst m.2 fun hnone => by
            rw [insertAll_dict heights ms s0 s1 _ n1 hall, Option.or_eq_none_iff] at hnone
            have hfind := List.find?_eq_none.mp (Option.map_eq_none_iff.mp hnone.2) m hm
            exact hfind (decide_eq_true rfl)
          simp only [Shelf.take, ht, insertAll_same heights' n ms hmem, Option.bind_eq_bind,
            Option.bind_some, Dict.modify_self ht]

/-- So do the items of a load. -/
theorem Shelf.takeAll_same {heights : ℕ → Lvl} (heights' : ℕ → Lvl) (n : ℕ) :
    ∀ (items : List (Item α)) {sh sh' : Shelf α}, run (Shelf.take heights) items sh = some sh' →
      Covers sh'.dict sh.dict ∧ ∀ {D : Dict Bytes (SortSet α Bytes)}, Covers D sh'.dict →
        run (Shelf.take heights') items ⟨D, sh.cur, n⟩ = some ⟨D, sh'.cur, n⟩
  | [], sh, sh', h => by
      obtain rfl := Option.some.inj h
      exact ⟨covers_refl _, fun _ => rfl⟩
  | item :: items, sh, sh', h => by
      obtain ⟨sh1, htake, hrun⟩ := run_cons.mp h
      obtain ⟨hmono, hsame⟩ := Shelf.takeAll_same heights' n items hrun
      refine ⟨hmono.trans (Shelf.take_covers htake), fun {D} hD => run_cons.mpr ⟨_, ?_, hsame hD⟩⟩
      exact Shelf.take_same htake (hD.trans hmono) heights' n

/-- **Loading again.** A file that has been loaded is loaded again without any effect, whatever
the database has been through before, and whatever the file holds. -/
theorem load_again (c : Codecs α) (ops : List (DbOp α)) (heights heights' : ℕ → Lvl)
    (file : Bytes) :
    ∃ d ret s, run (DbOp.step c) ops Db.new = some d ∧
      checkDbFileAndLoad c heights (some file) d = some (ret, s) ∧
      ∃ s', checkDbFileAndLoad c heights' (some file) s.db = some (ret, s') ∧ s'.db = s.db := by
  obtain ⟨d, hrun0, h⟩ := run_ok c ops
  obtain ⟨ret, s, hload, hok⟩ := checkDbFileAndLoad_ok c heights (some file) h
  obtain ⟨ret', s', hload', _⟩ := checkDbFileAndLoad_ok c heights' (some file) hok
  have hitems := checkDbFileAndLoad_items c heights file d
  have hitems' := checkDbFileAndLoad_items c heights' file s.db
  rw [hload, Option.map_some] at hitems
  obtain ⟨sh, hrun, heq⟩ := Option.map_eq_some_iff.mp hitems.symm
  obtain ⟨hret, hdb⟩ := Prod.mk.inj heq
  have hdict : s.db.dbDict = sh.dict := by rw [← hdb]
  obtain ⟨_, hsame⟩ := Shelf.takeAll_same heights' 0 _ hrun
  have hagain := hsame (covers_refl sh.dict)
  rw [← hdict] at hagain
  simp only [hload', hagain, Option.map_some, Option.some.injEq, Prod.mk.injEq] at hitems'
  refine ⟨d, ret, s, hrun0, hload, s', ?_, ?_⟩
  · rw [hload', hitems'.1, hret]
  · rw [hitems'.2, ← hdb]

/-! ## Tables that were loaded -/

/-- A table in which nothing has been deleted: `lenth_` is the number of its members. -/
structure Undeleted (s : SortSet α Bytes) : Prop where
  holds : Holds s s.members
  ranked : Ranked s.members
  lenth : s.sl.lenth = UInt64.ofNat s.members.length

theorem undeleted_new : Undeleted (SortSet.new : SortSet α Bytes) := by
  have hmem : (SortSet.new : SortSet α Bytes).members = [] := holds_new.members_eq
  exact ⟨by rw [hmem]; exact holds_new, by rw [hmem]; exact List.Pairwise.nil, by rw [hmem]; rfl⟩

theorem Undeleted.insert {s s' : SortSet α Bytes} (h : Undeleted s) {lvl : Lvl} {score : α}
    {data : Bytes} {ret : Bool} (hins : s.insert lvl score data = some (ret, s')) :
    Undeleted s' := by
  cases hd : s.dict data with
  | some old =>
      simp only [SortSet.insert, hd, Option.some.injEq, Prod.mk.injEq] at hins
      rw [← hins.2]
      exact h
  | none =>
      obtain ⟨s1, hins1, hlen, h1⟩ := h.holds.insert h.ranked lvl score hd
      obtain ⟨_, rfl⟩ := Prod.mk.inj (Option.some.inj (hins.symm.trans hins1))
      have hnew : ∀ a ∈ s.members, a.2 ≠ data := by
        rintro ⟨key, _⟩ ha rfl
        rw [(h.holds.dict _ key).mpr ha] at hd
        cases hd
      have hmem := h1.members_eq
      refine ⟨by rw [hmem]; exact h1, by rw [hmem]; exact Board.pairwise_place h.ranked hnew, ?_⟩
      rw [hlen, h.lenth, hmem, (Board.perm_place _ _).length_eq, List.length_cons,
        UInt64.ofNat_add, UInt64.ofNat_one]

theorem Undeleted.insertAll (heights : ℕ → Lvl) : ∀ (ms : List (α × Bytes)) {s s' : SortSet α Bytes}
    {n n' : ℕ}, Undeleted s → LibC.insertAll heights ms s n = some (s', n') → Undeleted s'
  | [], s, s', n, n', h, hall => by
      obtain ⟨rfl, _⟩ := Prod.mk.inj (Option.some.inj hall)
      exact h
  | (score, data) :: ms, s, s', n, n', h, hall => by
      simp only [LibC.insertAll, Option.bind_eq_bind, Option.bind_eq_some_iff] at hall
      obtain ⟨⟨ret, s1⟩, hins, hall⟩ := hall
      exact Undeleted.insertAll heights ms (h.insert hins) hall

/-- All tables are. -/
def Shelf.AllUndeleted (sh : Shelf α) : Prop := ∀ key s, sh.dict.find key = some s → Undeleted s

theorem Shelf.AllUndeleted.take {heights : ℕ → Lvl} {item : Item α} {sh sh' : Shelf α}
    (h : sh.AllUndeleted) (htake : sh.take heights item = some sh') : sh'.AllUndeleted := by
  cases item with
  | skip =>
      obtain rfl := Option.some.inj htake
      exact h
  | table key =>
      obtain rfl := Option.some.inj htake
      intro q s hs
      simp only [find_openTable] at hs
      split at hs
      · obtain rfl := Option.some.inj hs
        cases hf : sh.dict.find key with
        | none => exact undeleted_new
        | some s0 => exact h key s0 hf
      · exact h q s hs
  | members ms =>
      cases hcur : sh.cur with
      | none =>
          simp only [Shelf.take, hcur, Option.some.injEq] at htake
          rwa [← htake]
      | some cur =>
          simp only [Shelf.take, hcur, Option.bind_eq_bind, Option.bind_eq_some_iff,
            Option.some.injEq] at htake
          obtain ⟨s0, hf, ⟨s1, n1⟩, hall, rfl⟩ := htake
          intro q s hs
          simp only [Dict.find_modify] at hs
          split at hs
          · obtain ⟨_, _, rfl⟩ := Option.map_eq_some_iff.mp hs
            exact (h cur s0 hf).insertAll heights ms hall
          · exact h q s hs

/-- The tables of a load are. -/
theorem load_undeleted {c : Codecs α} {heights : ℕ → Lvl} {file : Bytes} {ret : Int} {s : Loader α}
    (hload : checkDbFileAndLoad c heights (some file) Db.new = some (ret, s)) :
    ∀ key t, s.db.dbDict.find key = some t → Undeleted t := by
  have hitems := checkDbFileAndLoad_items c heights file (Db.new : Db α)
  rw [hload, Option.map_some] at hitems
  obtain ⟨sh, hrun, heq⟩ := Option.map_eq_some_iff.mp hitems.symm
  have h0 : Shelf.AllUndeleted (⟨(Db.new : Db α).dbDict, none, 0⟩ : Shelf α) := fun key t ht => by
    simp [Db.new] at ht
  have hsh : sh.AllUndeleted :=
    run_invariant Shelf.AllUndeleted (fun _ _ _ h htake => h.take htake) h0 hrun
  have hdict : s.db.dbDict = sh.dict := by rw [← (Prod.mk.inj heq).2]
  intro key t ht
  exact hsh key t (hdict ▸ ht)

/-- **A load makes right tables.** Whatever a file holds, loading it into an empty database makes
tables whose halves agree, and whose `lenth_` is the number of their members. -/
theorem load_sound (c : Codecs α) (heights : ℕ → Lvl) (file : Bytes) :
    ∃ ret s, checkDbFileAndLoad c heights (some file) Db.new = some (ret, s) ∧
      ∀ key t, s.db.dbDict.find key = some t →
        Agrees t ∧ t.sl.lenth = UInt64.ofNat t.members.length := by
  obtain ⟨ret, s, hload, _⟩ := checkDbFileAndLoad_ok c heights (some file) dbOk_new
  refine ⟨ret, s, hload, fun key t ht => ?_⟩
  have hright := load_undeleted hload key t ht
  exact ⟨hright.holds.agrees hright.ranked, hright.lenth⟩

end LibC
