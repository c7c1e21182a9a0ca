/-
LibC.Config.ServerConfigTheorems — what a proxy or a server is configured with is what its
file says.

`strItem`, `IntItem` and `ULongLongItem` are what a file says about a string and a number, and
`Says` is what it says about the fields that both have. `init_render` and `init_render_server`
say it of all fields at once, for a proxy with the list of servers as long as `SvrNum` says.
`init_enoent` is the other way out of `Init`: it answers `0` as well, but only the fields of
the log are set.

No `sorry`, no `axiom`, no `native_decide`.
-/
import LibC.Config.RenderTheorems
import LibC.Config.ServerConfig
import Mathlib.Data.Nat.Digits.Lemmas

namespace LibC

open LibC.Lib

/-! ## Numbers -/

theorem digit?_ofNat {d : ℕ} (h : d < 10) : digit? 10 (UInt8.ofNat (48 + d)) = some d := by
  have hall : ∀ d : Fin 10, digit? 10 (UInt8.ofNat (48 + d)) = some d.val := by decide
  exact hall ⟨d, h⟩

/-- Digits are read as they are written. -/
theorem digitsFrom_digits : ∀ {ds : List ℕ}, (∀ d ∈ ds, d < 10) → ∀ v : ℕ,
    digitsFrom 10 (ds.map fun d => UInt8.ofNat (48 + d)) v =
      ds.foldl (fun v d => 10 * v + d) v := by
  intro ds
  induction ds with
  | nil => exact fun _ _ => rfl
  | cons d ds ih =>
      intro h v
      rw [List.map_cons, digitsFrom, digit?_ofNat (h d List.mem_cons_self)]
      exact ih (fun d' hd' => h d' (List.mem_cons_of_mem _ hd')) _

theorem digitsFrom_decimal (n : ℕ) : digitsFrom 10 (decimal n) 0 = n := by
  rw [decimal]
  split_ifs with h0
  · rw [h0]
    rfl
  · rw [digitsFrom_digits fun d hd => Nat.digits_lt_base (by decide) (List.mem_reverse.mp hd),
      List.foldl_reverse]
    have h := Nat.ofDigits_eq_foldr 10 (Nat.digits 10 n)
    rw [Nat.ofDigits_digits] at h
    simpa [Nat.add_comm] using h.symm

/-- The bytes of a number are digits. -/
theorem digit_of_decimal {n : ℕ} {c : UInt8} (h : c ∈ decimal n) : 48 ≤ c ∧ c ≤ 57 := by
  rw [decimal] at h
  split_ifs at h
  · obtain rfl := List.mem_singleton.mp h
    decide
  · obtain ⟨d, hd, rfl⟩ := List.mem_map.mp h
    have hlt : d < 10 := Nat.digits_lt_base (by decide) (List.mem_reverse.mp hd)
    have hall : ∀ d : Fin 10, 48 ≤ UInt8.ofNat (48 + d) ∧ UInt8.ofNat (48 + d) ≤ 57 := by decide
    exact hall ⟨d, hlt⟩

theorem decimal_ne (n : ℕ) : decimal n ≠ [] := by
  rw [decimal]
  split_ifs with h0
  · exact List.cons_ne_nil _ _
  · simpa using Nat.digits_ne_nil_iff_ne_zero.mpr h0

theorem length_decimal {n k : ℕ} (hk : 0 < k) (h : n < 10 ^ k) : (decimal n).length ≤ k := by
  rw [decimal]
  split_ifs
  · exact hk
  · rw [List.length_map, List.length_reverse]
    exact (Nat.digits_length_le_iff (by decide) n).mpr h

/-- A number can be written as a value. -/
theorem value_decimal (n : ℕ) : Ini.Value (decimal n) := by
  have hall : ∀ c ∈ decimal n, c ≠ 0 ∧ c ≠ 10 ∧ c ≠ 13 ∧ isBlank c = false := by
    intro c hc
    obtain ⟨h1, h2⟩ := digit_of_decimal hc
    refine ⟨?_, ?_, ?_, ?_⟩
    · rintro rfl
      exact absurd h1 (by decide)
    · rintro rfl
      exact absurd h1 (by decide)
    · rintro rfl
      exact absurd h1 (by decide)
    · have hne : ∀ b : UInt8, b < 48 → c ≠ b := fun b hb heq =>
        absurd (heq ▸ h1) (UInt8.not_le.mpr hb)
      simp [isBlank, hne 32 (by decide), hne 9 (by decide), hne 13 (by decide), hne 10 (by decide)]
  exact ⟨fun c hc => ⟨(hall c hc).1, (hall c hc).2.1, (hall c hc).2.2.1⟩,
    fun c hc => (hall c (List.mem_of_mem_head? hc)).2.2.2,
    fun c hc => (hall c (List.mem_of_getLast? hc)).2.2.2⟩

/-- A number begins with a digit. -/
theorem takeSign_decimal (n : ℕ) :
    takeSign ((decimal n).dropWhile isSpace) = (1, decimal n) := by
  obtain ⟨c, s, hs⟩ := List.exists_cons_of_ne_nil (decimal_ne n)
  obtain ⟨h1, _⟩ := digit_of_decimal (n := n) (c := c) (by simp [hs])
  have hspace : isSpace c = false := by
    have h32 : c ≠ 32 := fun heq => absurd (heq ▸ h1) (by decide)
    have h13 : ¬ c ≤ 13 := fun hle => absurd (UInt8.le_trans h1 hle) (by decide)
    simp [isSpace, h32, h13]
  have hminus : c ≠ 45 := fun heq => absurd (heq ▸ h1) (by decide)
  have hplus : c ≠ 43 := fun heq => absurd (heq ▸ h1) (by decide)
  rw [hs, List.dropWhile_cons_of_neg (by simp [hspace]), takeSign, if_neg hminus, if_neg hplus]

/-- A number is read as it is written. -/
theorem atoi_decimal {n : ℕ} (h : n < 2 ^ 31) : atoi (decimal n) = some n := by
  simp only [atoi, takeSign_decimal, digitsFrom_decimal, one_mul, checkedInt]
  exact if_pos ⟨by omega, by omega⟩

theorem strtoull_decimal {n : ℕ} (h : n < 2 ^ 64) : strtoull (decimal n) = UInt64.ofNat n := by
  simp only [strtoull, takeSign_decimal, digitsFrom_decimal, if_pos h, one_mul]
  rw [UInt64.ofInt, Int.emod_eq_of_lt (by omega) (by omega), Int.toNat_natCast]

/-- It does not begin like a hexadecimal one. -/
theorem take_decimal (n : ℕ) :
    (decimal n).take 2 ≠ ascii "0x" ∧ (decimal n).take 2 ≠ ascii "0X" := by
  have hno : ∀ x : UInt8, 57 < x → ∀ l, (decimal n).take 2 ≠ l ++ [x] := fun x hx l heq => by
    have hin : x ∈ decimal n := List.mem_of_mem_take (i := 2) (by rw [heq]; simp)
    exact absurd (digit_of_decimal hin).2 (UInt8.not_le.mpr hx)
  exact ⟨hno 120 (by decide) [48], hno 88 (by decide) [48]⟩

/-! ## What a file says -/

namespace Ini

/-- The string of an item, in an array of `2048` bytes. -/
def strItem (secs : List IniSection) (sec item szDefault : Bytes) : Bytes :=
  ((find sec item secs).map fun value => trimString (value.take 2047)).getD szDefault

/-- The number of an item: the default, or a number that was written. -/
def IntItem (secs : List IniSection) (sec item : Bytes) (iDefault v : Int) : Prop :=
  (find sec item secs = none ∧ v = iDefault) ∨
    ∃ n : ℕ, n < 2 ^ 31 ∧ find sec item secs = some (decimal n) ∧ v = n

/-- A long number of an item. -/
def ULongLongItem (secs : List IniSection) (sec item : Bytes) (ullDefault v : UInt64) : Prop :=
  (find sec item secs = none ∧ v = ullDefault) ∨
    ∃ n : ℕ, n < 2 ^ 64 ∧ find sec item secs = some (decimal n) ∧ v = UInt64.ofNat n

variable {secs : List IniSection} {sec item : Bytes}

theorem isValid_render (hne : secs ≠ []) :
    (⟨some (render secs)⟩ : IniFile).isValid = some (render secs) := by
  simp [IniFile.isValid, render_ne hne]

/-- A file that was written is opened. -/
theorem new_render (hne : secs ≠ []) (hsize : (render secs).length < 2 ^ 31) :
    IniFile.new (some (Int32.ofNat (render secs).length)) true true (render secs) =
      some ⟨some (render secs)⟩ := by
  obtain ⟨ini, hnew, hvalid⟩ := new_text hsize
  rw [hnew, eq_of_isValid (hvalid.trans (isValid_render hne))]

theorem getStdString_render (hsec : SectionName sec) (hitem : ItemName item) (szDefault : Bytes)
    (hdef : szDefault.length < 2048) (hok : ∀ s ∈ secs, s.Ok) (strValue : Bytes) :
    ∃ ret, (⟨some (render secs)⟩ : IniFile).getStdString sec item szDefault strValue =
      some (ret, strValue ++ strItem secs sec item szDefault) := by
  simp only [IniFile.getStdString, getString_written hsec hitem szDefault hdef hok, strItem]
  cases find sec item secs with
  | none => exact ⟨eIniFile, rfl⟩
  | some value => exact ⟨0, rfl⟩

/-- A number is not trimmed, and it fits the array. -/
theorem trimString_decimal {n : ℕ} (h : n < 10 ^ 20) :
    trimString ((decimal n).take (32 - 1)) = decimal n := by
  have hlen := length_decimal (by decide) h
  rw [List.take_of_length_le (by omega), trimString_value (value_decimal n)]

theorem getInt_render (hsec : SectionName sec) (hitem : ItemName item) {iDefault v : Int}
    (hne : secs ≠ []) (hok : ∀ s ∈ secs, s.Ok) (hv : IntItem secs sec item iDefault v)
    (piValue : Int) :
    ∃ ret, (⟨some (render secs)⟩ : IniFile).getInt sec item iDefault piValue = some (ret, v) := by
  have hget := getString_written hsec hitem [] (show 0 < 32 by decide) hok
  simp only [IniFile.getInt, isValid_render hne, hget]
  rcases hv with ⟨hnone, rfl⟩ | ⟨n, hn, hsome, rfl⟩
  · exact ⟨eIniFile, by simp [hnone, answer, eIniFile]⟩
  · have hread := trimString_decimal (Nat.lt_trans hn (by decide))
    obtain ⟨hx, hX⟩ := take_decimal n
    exact ⟨0, by simp [hsome, answer, hread, hx, hX, atoi_decimal hn]⟩

theorem getULongLong_render (hsec : SectionName sec) (hitem : ItemName item)
    {ullDefault v : UInt64} (hne : secs ≠ []) (hok : ∀ s ∈ secs, s.Ok)
    (hv : ULongLongItem secs sec item ullDefault v) (pullValue : UInt64) :
    ∃ ret, (⟨some (render secs)⟩ : IniFile).getULongLong sec item ullDefault pullValue =
      some (ret, v) := by
  have hget := getString_written hsec hitem [] (show 0 < 32 by decide) hok
  simp only [IniFile.getULongLong, isValid_render hne, hget]
  rcases hv with ⟨hnone, rfl⟩ | ⟨n, hn, hsome, rfl⟩
  · exact ⟨eIniFile, by simp [hnone, answer, eIniFile]⟩
  · have hread := trimString_decimal (Nat.lt_trans hn (by decide))
    exact ⟨0, by simp [hsome, answer, hread, strtoull_decimal hn]⟩

/-- The name of an address. -/
theorem itemName_pushAddr (i : ℕ) : ItemName (ascii "PushAddr" ++ decimal i) where
  ne := List.cons_ne_nil _ _
  plain c hc := by
    rcases List.mem_append.mp hc with hc | hc
    · exact (show ItemName (ascii "PushAddr") by decide).plain c hc
    · obtain ⟨h1, h2⟩ := digit_of_decimal hc
      refine ⟨?_, ?_, ?_, ?_, ?_⟩ <;> rintro rfl <;> revert h1 h2 <;> decide
  start c hc := by
    obtain rfl : 80 = c := Option.some.inj hc
    decide

/-- What a file says about the fields of the log and of the server. -/
structure Says (secs : List IniSection) (level daemon port timeOut sleep : Int) : Prop where
  ok : ∀ s ∈ secs, s.Ok
  ne : secs ≠ []
  level : IntItem secs (ascii "LOG") (ascii "Level") 0 level
  daemon : IntItem secs (ascii "SERVER") (ascii "Daemon") 1 daemon
  port : IntItem secs (ascii "SERVER") (ascii "Port") 20309 port
  timeOut : IntItem secs (ascii "SERVER") (ascii "TimeOut") 0 timeOut
  sleep : IntItem secs (ascii "SERVER") (ascii "FreeSleepTime") 0 sleep

/-- The path of the log that a file says. -/
def pathItem (secs : List IniSection) : Bytes :=
  strItem secs (ascii "LOG") (ascii "Path") (ascii "./log/")

/-- A path with a slash at its end. -/
def withSlash (path : Bytes) : Bytes := if path.getLast? = some 47 then path else path ++ [47]

theorem initLog_other {path : Bytes} (h : path ≠ []) :
    initLog .other path = some (0, withSlash path) := by
  rw [initLog, withSlash, List.getLast?_eq_some_getLast h]
  simp only [Option.some.injEq]

theorem sectionName_log : SectionName (ascii "LOG") := by decide
theorem sectionName_server : SectionName (ascii "SERVER") := by decide
theorem sectionName_mq : SectionName (ascii "MQ") := by decide
theorem sectionName_db : SectionName (ascii "DB") := by decide

theorem getPath_render (hok : ∀ s ∈ secs, s.Ok) :
    ∃ ret, (⟨some (render secs)⟩ : IniFile).getStdString (ascii "LOG") (ascii "Path")
      (ascii "./log/") [] = some (ret, pathItem secs) :=
  getStdString_render sectionName_log (by decide) (ascii "./log/") (by decide) hok []

end Ini

open Ini

variable {secs : List IniSection} {level daemon port timeOut sleep : Int}

/-! ## The proxy -/

namespace ServerConfig

/-- The addresses that a file names. -/
def addrsOf (secs : List IniSection) (i n : ℕ) : List Bytes :=
  (List.range n).map fun k =>
    strItem secs (ascii "MQ") (ascii "PushAddr" ++ decimal (i + k + 1)) []

/-- The loop of `LoadMQ` reads them. -/
theorem loadAddrs_render (hok : ∀ s ∈ secs, s.Ok) : ∀ (left i : ℕ) (pushAddrs : List Bytes),
    loadAddrs ⟨some (render secs)⟩ left i pushAddrs = some (pushAddrs ++ addrsOf secs i left) := by
  intro left
  induction left with
  | zero => simp [loadAddrs, addrsOf]
  | succ left ih =>
      intro i pushAddrs
      obtain ⟨ret, hget⟩ := getStdString_render sectionName_mq (itemName_pushAddr (i + 1)) []
        (by decide) hok []
      have hsplit : addrsOf secs i (left + 1) =
          strItem secs (ascii "MQ") (ascii "PushAddr" ++ decimal (i + 1)) [] ::
            addrsOf secs (i + 1) left := by
        simp only [addrsOf, List.range_succ_eq_map, List.map_cons, List.map_map, Nat.add_zero]
        refine congrArg _ (List.map_congr_left fun k _ => ?_)
        have hk : i + k.succ + 1 = i + 1 + k + 1 := by omega
        rw [Function.comp_apply, hk]
      simp only [loadAddrs, hget, Option.bind_eq_bind, Option.bind_some, List.nil_append]
      rw [ih (i + 1), hsplit, List.append_assoc, List.singleton_append]

/-- **A proxy is configured as its file says.** Whatever else a configuration file holds, in
whatever order, a proxy that opens it and makes the directory of the log, or finds it there, reads
each field from it, with the defaults of the code for those that are missing, and as many addresses
of servers as `SvrNum` says, in order. -/
theorem init_render (h : Says secs level daemon port timeOut sleep) {bucketNum : Int} {n : ℕ}
    (hbucket : IntItem secs (ascii "SERVER") (ascii "BucketNum") 2048 bucketNum)
    (hnum : IntItem secs (ascii "MQ") (ascii "SvrNum") 0 n) (hpath : pathItem secs ≠ [])
    (hsize : (render secs).length < 2 ^ 31) (cfg : ServerConfig) (hfresh : cfg.ip = [] ∧
      cfg.pushAddrs = [] ∧ cfg.pullAddr = [] ∧ cfg.logPath = []) :
    ∃ ini, IniFile.new (some (Int32.ofNat (render secs).length)) true true (render secs) =
        some ini ∧
      init .other ini cfg = some (0, {
        daemon
        ip := strItem secs (ascii "SERVER") (ascii "IP") []
        port
        timeOut
        freeTimeSleep := sleep
        bucketNum
        pushAddrs := addrsOf secs 0 n
        pullAddr := strItem secs (ascii "MQ") (ascii "PullAddr") []
        logPath := withSlash (pathItem secs)
        logLevel := level }) := by
  obtain ⟨hip, haddrs, hpull, hlogPath⟩ := hfresh
  refine ⟨_, new_render h.ne hsize, ?_⟩
  obtain ⟨_, h1⟩ := getPath_render h.ok
  obtain ⟨_, h2⟩ := getInt_render sectionName_log (by decide) h.ne h.ok h.level cfg.logLevel
  obtain ⟨_, h3⟩ := getInt_render sectionName_server (by decide) h.ne h.ok h.daemon cfg.daemon
  obtain ⟨_, h4⟩ := getStdString_render sectionName_server (by decide : ItemName (ascii "IP")) []
    (by decide) h.ok []
  obtain ⟨_, h5⟩ := getInt_render sectionName_server (by decide) h.ne h.ok h.port cfg.port
  obtain ⟨_, h6⟩ := getInt_render sectionName_server (by decide) h.ne h.ok h.timeOut cfg.timeOut
  obtain ⟨_, h7⟩ := getInt_render sectionName_server (by decide) h.ne h.ok h.sleep
    cfg.freeTimeSleep
  obtain ⟨_, h8⟩ := getInt_render sectionName_server (by decide) h.ne h.ok hbucket cfg.bucketNum
  obtain ⟨_, h9⟩ := getInt_render sectionName_mq (by decide) h.ne h.ok hnum 0
  obtain ⟨_, h10⟩ := getStdString_render sectionName_mq (by decide : ItemName (ascii "PullAddr"))
    [] (by decide) h.ok []
  simp only [init, loadMQ, hlogPath, hip, hpull, haddrs, h1, h2, List.nil_append,
    initLog_other hpath, Option.bind_eq_bind, Option.bind_some, Int.lt_irrefl, if_false, h3, h4,
    h5, h6, h7, h8, h9, Int.toNat_natCast, loadAddrs_render h.ok, h10]

/-- Nothing yet. -/
def unread : ServerConfig := ⟨7, [], 7, 7, 7, 7, [], [], [], 7⟩

theorem init_render_two : ∃ ini,
    IniFile.new (some (Int32.ofNat (render twoSections).length)) true true (render twoSections) =
        some ini ∧
      init .other ini unread = some (0, {
        daemon := 1
        ip := []
        port := 20309
        timeOut := 0
        freeTimeSleep := 0
        bucketNum := 2048
        pushAddrs := [ascii "a;b", ascii "c"]
        pullAddr := ascii "d"
        logPath := ascii "./log/"
        logLevel := 0 }) := by
  have hport : find (ascii "SERVER") (ascii "Port") twoSections = some (decimal 20309) := by
    decide +kernel
  have hnum : find (ascii "MQ") (ascii "SvrNum") twoSections = some (decimal 2) := by
    decide +kernel
  have haddrs : addrsOf twoSections 0 2 = [ascii "a;b", ascii "c"] := by decide +kernel
  have hip : strItem twoSections (ascii "SERVER") (ascii "IP") [] = [] := by decide
  have hpull : strItem twoSections (ascii "MQ") (ascii "PullAddr") [] = ascii "d" := by decide
  have hpath : withSlash (pathItem twoSections) = ascii "./log/" := by decide
  have hsays : Says twoSections 0 1 20309 0 0 :=
    ⟨by decide, by decide, Or.inl ⟨by decide, rfl⟩, Or.inl ⟨by decide, rfl⟩,
      Or.inr ⟨20309, by decide, hport, rfl⟩, Or.inl ⟨by decide, rfl⟩, Or.inl ⟨by decide, rfl⟩⟩
  obtain ⟨ini, hnew, hinit⟩ := init_render (n := 2) hsays (Or.inl ⟨by decide, rfl⟩)
    (Or.inr ⟨2, by decide, hnum, rfl⟩) (by decide) (by decide +kernel) unread ⟨rfl, rfl, rfl, rfl⟩
  rw [haddrs, hip, hpull, hpath] at hinit
  exact ⟨ini, hnew, hinit⟩

/-- Without a directory for the log, `Init` sets no other field, and answers `0` as well. -/
theorem init_enoent (h : Says secs level daemon port timeOut sleep) (cfg : ServerConfig)
    (hfresh : cfg.logPath = []) :
    init .enoent ⟨some (render secs)⟩ cfg =
      some (0, { cfg with logPath := pathItem secs, logLevel := level }) := by
  obtain ⟨_, h1⟩ := getPath_render h.ok
  obtain ⟨_, h2⟩ := getInt_render sectionName_log (by decide) h.ne h.ok h.level cfg.logLevel
  simp [init, hfresh, h1, h2, initLog]

end ServerConfig

/-! ## The server -/

namespace SvrServerConfig

/-- A server is configured as its file says. -/
theorem init_render_server (h : Says secs level daemon port timeOut sleep) {fileMaxSize : UInt64}
    {persistendTime : Int}
    (hmax : ULongLongItem secs (ascii "DB") (ascii "FileMaxSize") 1024000000 fileMaxSize)
    (htime : IntItem secs (ascii "DB") (ascii "PersistendTime") 3600 persistendTime)
    (hpath : pathItem secs ≠ []) (hsize : (render secs).length < 2 ^ 31) (cfg : SvrServerConfig)
    (hfresh : cfg.ip = [] ∧ cfg.pullAddr = [] ∧ cfg.dbFile = [] ∧ cfg.logPath = []) :
    ∃ ini, IniFile.new (some (Int32.ofNat (render secs).length)) true true (render secs) =
        some ini ∧
      init .other ini cfg = some (0, {
        daemon
        ip := strItem secs (ascii "SERVER") (ascii "IP") []
        port
        timeOut
        freeTimeSleep := sleep
        pullAddr := strItem secs (ascii "MQ") (ascii "PullAddr") []
        dbFile := strItem secs (ascii "DB") (ascii "DBFile") (ascii "./")
        fileMaxSize
        persistendTime
        logPath := withSlash (pathItem secs)
        logLevel := level }) := by
  obtain ⟨hip, hpull, hdb, hlogPath⟩ := hfresh
  refine ⟨_, new_render h.ne hsize, ?_⟩
  obtain ⟨_, h1⟩ := getPath_render h.ok
  obtain ⟨_, h2⟩ := getInt_render sectionName_log (by decide) h.ne h.ok h.level cfg.logLevel
  obtain ⟨_, h3⟩ := getInt_render sectionName_server (by decide) h.ne h.ok h.daemon cfg.daemon
  obtain ⟨_, h4⟩ := getStdString_render sectionName_server (by decide : ItemName (ascii "IP")) []
    (by decide) h.ok []
  obtain ⟨_, h5⟩ := getInt_render sectionName_server (by decide) h.ne h.ok h.port cfg.port
  obtain ⟨_, h6⟩ := getInt_render sectionName_server (by decide) h.ne h.ok h.timeOut cfg.timeOut
  obtain ⟨_, h7⟩ := getInt_render sectionName_server (by decide) h.ne h.ok h.sleep
    cfg.freeTimeSleep
  obtain ⟨_, h8⟩ := getStdString_render sectionName_mq (by decide : ItemName (ascii "PullAddr"))
    [] (by decide) h.ok []
  obtain ⟨_, h9⟩ := getStdString_render sectionName_db (by decide : ItemName (ascii "DBFile"))
    (ascii "./") (by decide) h.ok []
  obtain ⟨_, h10⟩ := getULongLong_render sectionName_db (by decide) h.ne h.ok hmax cfg.fileMaxSize
  obtain ⟨_, h11⟩ := getInt_render sectionName_db (by decide) h.ne h.ok htime cfg.persistendTime
  simp only [init, hlogPath, hip, hpull, hdb, h1, h2, List.nil_append, initLog_other hpath,
    Option.bind_eq_bind, Option.bind_some, Int.lt_irrefl, if_false, h3, h4, h5, h6, h7, h8, h9,
    h10, h11]

end SvrServerConfig

end LibC
