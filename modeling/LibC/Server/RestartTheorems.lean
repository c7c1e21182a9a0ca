/-
LibC.Server.RestartTheorems — a server that is stopped, and started again.

The heights of the nodes and `lenth_` are not in the file, so the tables after a
restart are not the tables before it. But they show the same boards
(`Shows.restart`), with a `lenth_` that is at most what it was, and so
`restart_leaderboard`: nobody who asks the server can tell that it was restarted,
when its last save was complete.

The messages that wait in a queue when the server stops are not part of this.

No `sorry`, no `axiom`, no `native_decide`.
-/
import LibC.Server.LoadItemTheorems

namespace LibC

open LibC.Lib

variable {α : Type} [LinearOrder α] [Neg α] [One α]
variable {n : ℕ} {d : Db α} {bs : Boards α}

/-- The VERSION, DB and TABLE records fit an `int`. -/
def Db.HeadersFit (c : Codecs α) (now : Bytes) (d : Db α) : Prop :=
  FitsInt (c.version.serializeAsString (dbVer now)) ∧ FitsInt (c.db.serializeAsString db1) ∧
    ∀ e ∈ d.dbDict.entries, FitsInt (c.table.serializeAsString (tableMsg e.1 e.2))

/-- A database that shows boards can be saved. -/
theorem Shows.savable (h : Shows n d bs) (hn : n < 2 ^ 31) {c : Codecs α} {now : Bytes}
    (hfit : d.HeadersFit c now) : d.Savable c now := by
  refine ⟨hfit.1, hfit.2.1, fun e he => ⟨Or.inr fun hsize => ?_, hfit.2.2 e he⟩⟩
  obtain ⟨ht, hne⟩ := h.table e.1 e.2 (Dict.find_eq_some.mpr he)
  have henough := ht.enough
  have hfew := ht.few
  have hpos := List.length_pos_iff.mpr hne
  have hnat : e.2.sl.lenth.toNat % 2 ^ 32 = 0 := by
    rw [← UInt64.toNat_toUInt32]
    exact congrArg UInt32.toNat hsize
  omega

/-- A table that was loaded from what another one holds shows the same board. -/
theorem TableShows.of_undeleted {s t : SortSet α Bytes} {b : Board α Bytes} (h : TableShows n s b)
    (hn : n < 2 ^ 31) (ht : Holds t s.members) (hundel : Undeleted t) : TableShows n t b := by
  have hmem := h.holds.members_eq
  have henough := h.enough
  have hfew := h.few
  have hlenth : t.sl.lenth.toNat = b.entries.length := by
    rw [hundel.lenth, ht.members_eq, hmem, UInt64.toNat_ofNat', Nat.mod_eq_of_lt (by omega)]
  exact ⟨hmem ▸ ht, hlenth.ge, by omega⟩

/-- Saving, and loading into a new database. -/
theorem Shows.restart (h : Shows n d bs) (hn : n < 2 ^ 31) (c : Codecs α) (hdef : c.Defaults)
    (now : Bytes) (hinv : c.Inverts now d) (hfit : d.HeadersFit c now)
    (order : { l : List (Bytes × SortSet α Bytes) // l.Perm d.dbDict.entries }) (files : Files)
    (heights : ℕ → Lvl) :
    ∃ F errs files' s', saveToFile c .allOk now d order files = some (0, errs, files') ∧
      files'.dbFile = some F ∧
      checkDbFileAndLoad c heights (some F) Db.new = some (0, s') ∧ Shows n s'.db bs := by
  have hs := h.savable hn hfit
  have hhead := hs.header hdef hinv
  have htab := hs.tables hdef hinv
  have hmem : ∀ {e}, e ∈ order.val ↔ e ∈ d.dbDict.entries := order.property.mem_iff
  have hshow : ∀ e ∈ d.dbDict.entries, TableShows n e.2 (bs e.1) ∧ (bs e.1).entries ≠ [] :=
    fun e he => h.table e.1 e.2 (Dict.find_eq_some.mpr he)
  rcases saveToFile_spec c .allOk now h.live.ok order files with
    ⟨hno, _⟩ | ⟨_, _, ⟨e, he, hf⟩, _⟩ | ⟨_, _, _, ret, content, errs, files', hsave, hpart, _, hfin⟩
  · exact absurd ⟨rfl, hhead⟩ hno
  · obtain ⟨ht, hne⟩ := hshow e he
    exact absurd (ht.holds.members_eq.symm.trans hf.1) hne
  · obtain ⟨_, rfl, hfile⟩ | ⟨hfin, _⟩ := hfin
    · rw [hpart.all htab] at hfile
      have hbody := bodyOk_dbRecords c .allOk now order.val hhead fun e he => htab e (hmem.mp he)
      -- VERSION and DB record have no effect on the tables
      obtain ⟨s0, hrecs, hdict0⟩ : ∃ s0 : Loader α, loadRecords c heights
          (dbRecords c now order.val) (.start Db.new) =
            loadRecords c heights (order.val.flatMap (tableRecords c)) s0 ∧
          s0.db.dbDict = Dict.empty := ⟨_, rfl, rfl⟩
      obtain ⟨s', hload, hall, hrest⟩ := loadTables c heights order.val
        ((order.property.map Prod.fst).nodup_iff.mpr d.dbDict.nodup)
        (fun e he => ⟨fun r hr => hbody r (List.mem_cons_of_mem _ (List.mem_cons_of_mem _
            (List.mem_flatMap.mpr ⟨e, he, hr⟩))),
          hinv.table e (hmem.mp he), hinv.key e (hmem.mp he), by
            rw [(hshow e (hmem.mp he)).1.holds.members_eq]
            exact (bs e.1).ranked⟩)
        s0 (fun e _ => by rw [hdict0, Dict.find_empty])
      have hloaded : checkDbFileAndLoad c heights (some (fileOf (dbRecords c now order.val)))
          Db.new = some (0, Loader.finish { s' with file := [] }) := by
        rw [checkDbFileAndLoad_records c heights hbody, hrecs, hload]
        rfl
      have hundel := load_undeleted hloaded
      have hnone : ∀ key, d.dbDict.find key = none → s'.db.dbDict.find key = none := by
        intro key hk
        rw [hrest key fun hin => ?_, hdict0, Dict.find_empty]
        rw [(order.property.map Prod.fst).mem_iff] at hin
        exact Dict.find_eq_none.mp hk hin
      refine ⟨_, errs, files', _, hsave, hfile, hloaded, fun key t ht => ?_, fun key hk => ?_,
        h.distinct⟩
      · have htab' : s'.db.dbDict.find key = some t := ht
        cases hk : d.dbDict.find key with
        | none =>
            rw [hnone key hk] at htab'
            cases htab'
        | some s =>
            have he : (key, s) ∈ d.dbDict.entries := Dict.find_eq_some.mp hk
            obtain ⟨t', ht', hholds⟩ := hall (key, s) (hmem.mpr he)
            obtain rfl := Option.some.inj (htab'.symm.trans ht')
            obtain ⟨hs0, hne⟩ := hshow (key, s) he
            exact ⟨hs0.of_undeleted hn hholds (hundel key t ht), hne⟩
      · have hk' : s'.db.dbDict.find key = none := hk
        cases hd : d.dbDict.find key with
        | none => exact h.missing key hd
        | some s =>
            obtain ⟨t', ht', _⟩ := hall (key, s) (hmem.mpr (Dict.find_eq_some.mp hd))
            rw [hk'] at ht'
            cases ht'
    · exact absurd ⟨rfl, rfl, rfl, rfl⟩ hfin

open MsgLoop in
/-- **A restart does not show.** A server runs, saves its database completely, is stopped and
started again, and runs on. What it has sent before and after is what the boards send for the
messages it has handled before and after, as if nothing had happened between them. -/
theorem restart_leaderboard [Zero α] (m : MsgCodecs α) (toScore : ToScore α) (c : Codecs α)
    (hdef : c.Defaults) (evs evs' : List (Event α)) {s : MsgLoop α}
    (hrun : run (MsgLoop.step m toScore) evs (init Db.new) = some s) (now : Bytes)
    (hinv : c.Inverts now s.db) (hfit : s.db.HeadersFit c now)
    (order : { l : List (Bytes × SortSet α Bytes) // l.Perm s.db.dbDict.entries }) (files : Files)
    (heights : ℕ → Lvl)
    (hu : Boards.UntiedAll m
      (s.handled ++ (arrived evs').filter fun m => decide (Readable m)) Boards.empty)
    (hfew : (m.entries
      (s.handled ++ (arrived evs').filter fun m => decide (Readable m))).length < 2 ^ 31) :
    ∃ F errs files' l s', saveToFile c .allOk now s.db order files = some (0, errs, files') ∧
      files'.dbFile = some F ∧ checkDbFileAndLoad c heights (some F) Db.new = some (0, l) ∧
      run (MsgLoop.step m toScore) evs' (init l.db) = some s' ∧
      s'.handled <+: (arrived evs').filter (fun m => decide (Readable m)) ∧
      s.sent ++ s'.sent = Boards.feed m toScore (s.handled ++ s'.handled) Boards.empty := by
  rw [Boards.untiedAll_append] at hu
  rw [m.entries_append, List.length_append] at hfew
  obtain ⟨s1, hrun1, _, hleads⟩ := run_leads shows_new m toScore evs
  obtain rfl := Option.some.inj (hrun.symm.trans hrun1)
  obtain ⟨hshows, hsent⟩ := hleads hu.1 (by omega)
  obtain ⟨F, errs, files', l, hsave, hfile, hload, hl⟩ :=
    hshows.restart (by omega) c hdef now hinv hfit order files heights
  obtain ⟨s', hrun', hpart, hsent'⟩ := run_sent hl m toScore evs' hu.2 (by omega)
  exact ⟨F, errs, files', l, s', hsave, hfile, hload, hrun', hpart, by
    rw [Boards.feed_append, hsent, hsent']⟩

/-- The question who is second, asked after the restart. -/
def topAgain : List (MsgLoop.Event ℤ) :=
  [.arrive (setThenTop.transApp.serializeAsString ⟨0x1017, 7, ascii "p", topTwo⟩),
    .onProc fun _ => ⟨fun _ => ⟨1, heightOne⟩, 0, .ok, true⟩]

/-- The members of the request, as they are ranked. -/
def ranking : List (ℤ × Bytes) := [(1, ascii "m"), (2, ascii "o"), (3, ascii "n")]

/-- The wire format of the messages of a database with the table of the request. -/
def oneBoard : Codecs ℤ where
  version := oneTable.version
  db := oneTable.db
  table := .ofTable [(⟨[], 0⟩, []), (⟨ascii "k", 3⟩, [0x0A, 1, 0x6B, 0x10, 3])] (by decide)
  key := .ofTable [(⟨[], []⟩, []), (⟨[1, 2, 3], [ascii "m", ascii "o", ascii "n"]⟩,
    [0x0A, 24, 0, 0, 0, 0, 0, 0, 0xF0, 0x3F, 0, 0, 0, 0, 0, 0, 0, 0x40,
      0, 0, 0, 0, 0, 0, 0x08, 0x40, 0x12, 1, 0x6D, 0x12, 1, 0x6F, 0x12, 1, 0x6E])] (by decide)

theorem oneBoard_defaults : oneBoard.Defaults := ⟨by decide, by decide, by decide, by decide⟩

/-- A database with this table is written and read as it is. -/
theorem oneBoard_fits {d : Db ℤ} (h : (d.dbDict.entries.map fun e =>
    (tableMsg e.1 e.2, e.2.members)) = [(⟨ascii "k", 3⟩, ranking)]) :
    oneBoard.Inverts epoch d ∧ d.HeadersFit oneBoard epoch := by
  obtain ⟨e, hone, he⟩ := List.map_eq_singleton_iff.mp h
  obtain ⟨htable, hmembers⟩ := Prod.mk.inj he
  refine ⟨⟨by decide, by decide, fun e' he' => ?_, fun e' he' g hg => ?_⟩, by decide, by decide,
    fun e' he' => ?_⟩ <;> rw [hone, List.mem_singleton] at he' <;> subst he'
  · rw [htable]
    decide
  · rw [hmembers] at hg
    obtain rfl : g = ranking := by simpa [groupsOf, ranking] using hg
    decide
  · rw [htable]
    decide

open MsgLoop in
theorem restart_leaderboard_two : ∃ s F errs files' l s',
    run (MsgLoop.step setThenTop intScore) setThenTopEvents (init Db.new) = some s ∧
      saveToFile oneBoard .allOk epoch s.db ⟨s.db.dbDict.entries, List.Perm.refl _⟩ ⟨none, none⟩ =
        some (0, errs, files') ∧
      files'.dbFile = some F ∧
      checkDbFileAndLoad oneBoard (fun _ => ⟨2, by decide⟩) (some F) Db.new = some (0, l) ∧
      run (MsgLoop.step setThenTop intScore) topAgain (init l.db) = some s' ∧
      s'.handled <+: (arrived topAgain).filter (fun m => decide (Readable m)) ∧
      s.sent ++ s'.sent =
        Boards.feed setThenTop intScore (s.handled ++ s'.handled) Boards.empty := by
  have hhandled : ((run (MsgLoop.step setThenTop intScore) setThenTopEvents (init Db.new)).map
      fun s => s.handled) = some (arrived setThenTopEvents) := by decide +kernel
  have hentries : ((run (MsgLoop.step setThenTop intScore) setThenTopEvents (init Db.new)).map
      fun s => s.db.dbDict.entries.map fun e => (tableMsg e.1 e.2, e.2.members)) =
        some [(⟨ascii "k", 3⟩, ranking)] := by decide +kernel
  obtain ⟨s, hrun, hhandled⟩ := Option.map_eq_some_iff.mp hhandled
  rw [hrun, Option.map_some, Option.some.injEq] at hentries
  obtain ⟨hinv, hfit⟩ := oneBoard_fits hentries
  have hu : Boards.UntiedAll setThenTop
      (s.handled ++ (arrived topAgain).filter fun m => decide (Readable m)) Boards.empty := by
    rw [hhandled]
    decide +kernel
  have hfew : (setThenTop.entries
      (s.handled ++ (arrived topAgain).filter fun m => decide (Readable m))).length < 2 ^ 31 := by
    rw [hhandled]
    decide +kernel
  obtain ⟨F, errs, files', l, s', h⟩ := restart_leaderboard setThenTop intScore oneBoard
    oneBoard_defaults setThenTopEvents topAgain hrun epoch hinv hfit
    ⟨s.db.dbDict.entries, List.Perm.refl _⟩ ⟨none, none⟩ (fun _ => ⟨2, by decide⟩) hu hfew
  exact ⟨s, F, errs, files', l, s', hrun, h⟩

end LibC
