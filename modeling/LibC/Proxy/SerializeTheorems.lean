/-
LibC.Proxy.SerializeTheorems — the two serializers that make a checksum.

`CheckSum` of a sequence carries a byte that is left over from one buffer to the
next, so it does not see where the buffers end (`Holds.checkSum`). The one over
an array sums the words of the frame as well, as long as its length is an `int`
(`cstrCheckSum_eq`), but it is taken when the field for it still has what was in
the array before. So the two make the same frame exactly when that is zero
(`agree_iff`), or for a frame that is too long to be summed, when its checksum
is.

No `sorry`, no `axiom`, no `native_decide`.
-/
import LibC.Proxy.SendTheorems
import LibC.Proxy.Serialize
import Mathlib.Algebra.Order.Ring.Int

namespace LibC

open LibC.Lib

/-! ## The checksum of a sequence -/

namespace BufferSequence

theorem sumWords_fst : ∀ (data : Bytes) (sum : UInt16),
    (sumWords data sum).1 = sum ^^^ xorWords data
  | lo :: hi :: data, sum => by
      rw [sumWords, sumWords_fst data, xorWords, word, UInt16.xor_assoc]
  | [_], sum => UInt16.xor_zero.symm
  | [], sum => UInt16.xor_zero.symm

/-- A buffer goes on where the one before has ended. -/
theorem sumBuffer_sumWords : ∀ (data : Bytes) (sum : UInt16) {next : Bytes}, next ≠ [] →
    sumBuffer (sumWords data sum) next = sumWords (data ++ next) sum
  | lo :: hi :: data, sum, next, hne => by
      rw [sumWords, sumBuffer_sumWords data _ hne]
      rfl
  | [last], sum, first :: next, _ => by
      rw [List.singleton_append, sumWords, sumWords, UInt16.add_comm]
      rfl
  | [], sum, _ :: _, _ => rfl

theorem foldl_sumBuffer : ∀ {vec : List Bytes} (data : Bytes) (sum : UInt16), (∀ d ∈ vec, d ≠ []) →
    vec.foldl sumBuffer (sumWords data sum) = sumWords (data ++ vec.flatten) sum
  | [], data, sum, _ => by simp
  | d :: vec, data, sum, hne => by
      rw [List.foldl_cons, sumBuffer_sumWords data sum (hne d List.mem_cons_self),
        foldl_sumBuffer _ _ fun e he => hne e (List.mem_cons_of_mem _ he), List.flatten_cons,
        List.append_assoc]

/-- `CheckSum` of a sequence is the one of the bytes that it holds. -/
theorem Holds.checkSum {app : AppData} {bs : BufferSequence} {data : Bytes}
    (h : bs.Holds app data) : bs.checkSum app = some (xorWords data) := by
  obtain ⟨ds, hall, rfl, hsize⟩ := h
  rw [BufferSequence.checkSum]
  split
  · next hzero =>
      have hnil : ds.flatten = [] := List.eq_nil_of_length_eq_zero (hsize.symm.trans hzero)
      rw [hnil]
      rfl
  · have hne : ∀ d ∈ ds.filter fun d => d ≠ [], d ≠ [] := fun d hd => by
      simpa using (List.mem_filter.mp hd).2
    have hfold := foldl_sumBuffer [] 0 hne
    rw [List.nil_append, flatten_filter_ne_nil] at hfold
    rw [BufferSequence.initIoVec, mapM_str hall, Option.map_some]
    have hstart : sumWords [] 0 = (0, none) := rfl
    rw [← hstart, hfold, sumWords_fst, UInt16.zero_xor]

end BufferSequence

/-! ## The checksum of an array -/

/-- The words of the first bytes of an array. -/
theorem checkSumLoop_eq : ∀ (data rest : Bytes) (sum : UInt16),
    checkSumLoop (data.length / 2) (data ++ rest) sum = some (sum ^^^ xorWords data)
  | lo :: hi :: data, rest, sum => by
      have hrounds : (lo :: hi :: data).length / 2 = data.length / 2 + 1 :=
        Nat.add_div_right data.length Nat.two_pos
      rw [hrounds, List.cons_append, List.cons_append, checkSumLoop, checkSumLoop_eq data, xorWords,
        UInt16.xor_assoc]
  | [_], _, _ => by simp [checkSumLoop, xorWords]
  | [], _, _ => by simp [checkSumLoop, xorWords]

/-- A number as an `int`. -/
theorem toInt_toInt32 (n : UInt32) :
    n.toInt32.toInt = if n.toNat < 2 ^ 31 then (n.toNat : ℤ) else n.toNat - 2 ^ 32 := by
  have hint : n.toInt32.toInt = n.toBitVec.toInt := rfl
  rw [hint, BitVec.toInt_eq_toNat_cond, UInt32.toNat_toBitVec]
  split <;> split <;> omega

/-- A length that is an `int` is summed as a whole, and a longer one not at all. -/
theorem cstrCheckSum_eq (data rest : Bytes) {len : UInt32} (hlen : len.toNat = data.length) :
    cstrCheckSum (data ++ rest) len.toInt32 =
      some (if data.length < 2 ^ 31 then xorWords data else 0) := by
  have hlt := len.toNat_lt
  rw [cstrCheckSum, toInt_toInt32, hlen]
  split
  · have hrounds : ((data.length : ℤ).tdiv 2).toNat = data.length / 2 := by
      rw [Int.tdiv_eq_ediv_of_nonneg (Int.natCast_nonneg _)]
      omega
    rw [hrounds, checkSumLoop_eq, UInt16.zero_xor]
  · have hrounds : (((data.length : ℤ) - 2 ^ 32).tdiv 2).toNat = 0 := by
      rw [Int.toNat_eq_zero, ← Int.neg_sub, Int.neg_tdiv]
      exact Int.neg_nonpos_of_nonneg (Int.tdiv_nonneg (by omega) (by decide))
    rw [hrounds, checkSumLoop]

/-! ## Storing -/

theorem store_eq {pre old new : Bytes} (post : Bytes) {offset : ℕ} (hpre : pre.length = offset)
    (hlen : old.length = new.length) :
    store offset new (pre ++ (old ++ post)) = some (pre ++ (new ++ post)) := by
  subst hpre
  rw [store, if_pos (by simp [hlen])]
  simp [← hlen]

/-! ## The two serializers -/

namespace Cmd

/-- A head and the application data behind it. -/
def frameWith (msgLen : UInt32) (check : UInt16) (c : Cmd) : Bytes :=
  msgHead msgLen c.uCmdId check ++ c.strAppData.bytes

/-- The checksum that a frame should have: of the frame in which it is zero. -/
def checkOf (msgLen : UInt32) (c : Cmd) : UInt16 := xorWords (c.frameWith msgLen 0)

/-- The two serializers make the same frame: one into a sequence, and one at the beginning of an
array. Its length is the one of the head and the application data. -/
def Agree (c : Cmd) (buf : Bytes) (dataLen : UInt64) : Prop :=
  ∃ msgLen : UInt32, msgLen.toNat = sizeofMsgHead + c.strAppData.bytes.length ∧
    (∃ bs vec, c.serializeBs = some bs ∧ bs.initIoVec c.strAppData = some vec ∧
      vec.flatten = c.frameWith msgLen (c.checkOf msgLen)) ∧
    ∃ buf', c.serializeTo (some buf) dataLen = some (true, some buf') ∧
      buf'.take (sizeofMsgHead + c.strAppData.bytes.length) =
        c.frameWith msgLen (c.checkOf msgLen)

variable {c : Cmd} {buf rest old : Bytes} {msgLen : UInt32} {dataLen : UInt64}

theorem length_frameWith (msgLen : UInt32) (check : UInt16) (c : Cmd) :
    (c.frameWith msgLen check).length = sizeofMsgHead + c.strAppData.bytes.length := by
  rw [frameWith, List.length_append]
  rfl

/-- The frame shows its checksum. -/
theorem frameWith_inj {k k' : UInt16} :
    c.frameWith msgLen k = c.frameWith msgLen k' ↔ k = k' := by
  refine ⟨fun h => ?_, fun h => h ▸ rfl⟩
  have hhead := List.append_cancel_right h
  have hcheck : htons k = htons k' := List.append_cancel_left hhead
  have hk := ntohs_htons_append k []
  rw [hcheck, ntohs_htons_append] at hk
  exact hk.symm

/-- `Serialize` into a sequence. -/
theorem serializeBs_frame (c : Cmd)
    (hlen : msgLen.toNat = sizeofMsgHead + c.strAppData.bytes.length) :
    ∃ bs vec, c.serializeBs = some bs ∧ bs.initIoVec c.strAppData = some vec ∧
      vec.flatten = c.frameWith msgLen (c.checkOf msgLen) := by
  have hmsg : UInt32.ofNat (sizeofMsgHead + c.strAppData.bytes.length) = msgLen := by
    rw [← hlen, UInt32.ofNat_toNat]
  have hframe : ∀ check : UInt16, { c with uCheck := check }.serialize =
      c.frameWith msgLen check := by
    intro check
    rw [← hmsg]
    rfl
  have hsum : c.sum = c.checkOf msgLen := by
    have hcheck := (c.holds_sequence 0).checkSum
    rw [c.checkSum_sequence, hframe] at hcheck
    exact Option.some.inj hcheck
  obtain ⟨bs, hrun, hbs⟩ := c.serializeBs_spec
  obtain ⟨vec, hvec, hflat⟩ := hbs.initIoVec
  exact ⟨bs, vec, hrun, hvec, by rw [hflat, Cmd.frame, hframe, hsum]⟩

/-- The frame with other bytes in place of the checksum. -/
theorem xorWords_head (msgLen : UInt32) (c : Cmd) (lo hi : UInt8) :
    xorWords (htonl msgLen ++ (htons c.uCmdId ++ ([lo, hi] ++ c.strAppData.bytes))) =
      c.checkOf msgLen ^^^ word lo hi := by
  have hzero : c.checkOf msgLen =
      xorWords (htonl msgLen ++ (htons c.uCmdId ++ ([0, 0] ++ c.strAppData.bytes))) := by
    rw [checkOf, frameWith, msgHead]
    rfl
  have hwords : ∀ x y, xorWords (htonl msgLen ++ (htons c.uCmdId ++ ([x, y] ++
      c.strAppData.bytes))) = xorWords (htonl msgLen) ^^^ (xorWords (htons c.uCmdId) ^^^
        (word x y ^^^ xorWords c.strAppData.bytes)) := by
    intro x y
    simp [htonl, htons, xorWords, UInt16.xor_assoc]
  have hword : word 0 0 = 0 := rfl
  rw [hzero, hwords, hwords, hword, UInt16.zero_xor]
  ac_rfl

/-- `Serialize` into an array whose check field is `lo` and `hi`. -/
theorem serializeTo_eq (hlen : msgLen.toNat = sizeofMsgHead + c.strAppData.bytes.length)
    (hle : msgLen.toUInt64 ≤ dataLen) {len cmd data : Bytes} {lo hi : UInt8} (rest : Bytes)
    (hl : len.length = 4) (hc : cmd.length = 2) (hd : data.length = c.strAppData.bytes.length) :
    c.serializeTo (some (len ++ (cmd ++ ([lo, hi] ++ (data ++ rest))))) dataLen =
      some (true, some (c.frameWith msgLen (if msgLen.toNat < 2 ^ 31 then
        c.checkOf msgLen ^^^ word lo hi else 0) ++ rest)) := by
  have hmsg : UInt32.ofNat (sizeofMsgHead + c.strAppData.bytes.length) = msgLen := by
    rw [← hlen, UInt32.ofNat_toNat]
  have h1 : store 4 (htons c.uCmdId) (len ++ (cmd ++ ([lo, hi] ++ (data ++ rest)))) =
      some (len ++ (htons c.uCmdId ++ ([lo, hi] ++ (data ++ rest)))) :=
    store_eq ([lo, hi] ++ (data ++ rest)) hl hc
  have h2 : store 0 (htonl msgLen) (len ++ (htons c.uCmdId ++ ([lo, hi] ++ (data ++ rest)))) =
      some (htonl msgLen ++ (htons c.uCmdId ++ ([lo, hi] ++ (data ++ rest)))) :=
    store_eq _ (rfl : ([] : Bytes).length = 0) hl
  have h3 : store sizeofMsgHead c.strAppData.bytes
      (htonl msgLen ++ (htons c.uCmdId ++ ([lo, hi] ++ (data ++ rest)))) =
        some (htonl msgLen ++ (htons c.uCmdId ++ ([lo, hi] ++ (c.strAppData.bytes ++ rest)))) := by
    have hhead : (htonl msgLen ++ (htons c.uCmdId ++ [lo, hi])).length = sizeofMsgHead := rfl
    have hstore := store_eq rest hhead hd
    simpa only [List.append_assoc] using hstore
  -- the checksum is taken with `lo` and `hi` still there
  obtain ⟨check, hcheck⟩ : ∃ check, (if msgLen.toNat < 2 ^ 31 then
      c.checkOf msgLen ^^^ word lo hi else 0) = check := ⟨_, rfl⟩
  have h4 : cstrCheckSum (htonl msgLen ++ (htons c.uCmdId ++ ([lo, hi] ++
      (c.strAppData.bytes ++ rest)))) msgLen.toInt32 = some check := by
    have hsize : msgLen.toNat =
        (htonl msgLen ++ (htons c.uCmdId ++ ([lo, hi] ++ c.strAppData.bytes))).length := by
      rw [hlen]
      simp [sizeofMsgHead]
      omega
    have hsum := cstrCheckSum_eq _ rest hsize
    rw [← hsize, xorWords_head, hcheck] at hsum
    simpa only [List.append_assoc] using hsum
  have h5 : store 6 (htons check) (htonl msgLen ++ (htons c.uCmdId ++ ([lo, hi] ++
      (c.strAppData.bytes ++ rest)))) =
        some (htonl msgLen ++ (htons c.uCmdId ++ (htons check ++
          (c.strAppData.bytes ++ rest)))) := by
    have hlohi : [lo, hi].length = (htons check).length := rfl
    have hhead : (htonl msgLen ++ htons c.uCmdId).length = 6 := rfl
    have hstore := store_eq (c.strAppData.bytes ++ rest) hhead hlohi
    simpa only [List.append_assoc] using hstore
  rw [serializeTo, hmsg, hcheck]
  simp only [if_neg (UInt64.not_lt.mpr hle), h1, h2, h3, h4, h5, Option.bind_eq_bind,
    Option.bind_some, frameWith, msgHead, List.append_assoc]

/-- An array that is large enough, taken apart. -/
theorem exists_parts (h : sizeofMsgHead + c.strAppData.bytes.length ≤ buf.length) :
    ∃ len cmd data rest lo hi, buf = len ++ (cmd ++ ([lo, hi] ++ (data ++ rest))) ∧
      len.length = 4 ∧ cmd.length = 2 ∧ data.length = c.strAppData.bytes.length ∧
        (buf.drop 6).take 2 = [lo, hi] := by
  rw [sizeofMsgHead] at h
  obtain ⟨lo, hi, tail, htail⟩ : ∃ lo hi tail, buf.drop 6 = lo :: hi :: tail := by
    have hlen : (buf.drop 6).length = buf.length - 6 := List.length_drop
    rcases hdrop : buf.drop 6 with _ | ⟨lo, _ | ⟨hi, tail⟩⟩
    · rw [hdrop, List.length_nil] at hlen
      omega
    · rw [hdrop, List.length_singleton] at hlen
      omega
    · exact ⟨lo, hi, tail, rfl⟩
  have htake : tail.length = buf.length - 8 := by
    have hlen := congrArg List.length htail
    rw [List.length_drop, List.length_cons, List.length_cons] at hlen
    omega
  refine ⟨buf.take 4, (buf.drop 4).take 2, tail.take c.strAppData.bytes.length,
    tail.drop c.strAppData.bytes.length, lo, hi, ?_, ?_, ?_, ?_, by rw [htail]; rfl⟩
  · have hrest : [lo, hi] ++ tail = (buf.drop 4).drop 2 := by
      rw [List.drop_drop, htail]
      rfl
    rw [List.take_append_drop, hrest, List.take_append_drop, List.take_append_drop]
  · rw [List.length_take]
    omega
  · rw [List.length_take, List.length_drop]
    omega
  · rw [List.length_take]
    omega

/-- The array has the frame in the end when its checksum is the one that was taken. -/
theorem serializeTo_iff (hlen : msgLen.toNat = sizeofMsgHead + c.strAppData.bytes.length)
    (hle : msgLen.toUInt64 ≤ dataLen) {len cmd data rest : Bytes} {lo hi : UInt8}
    (hl : len.length = 4) (hc : cmd.length = 2) (hd : data.length = c.strAppData.bytes.length) :
    (∃ buf', c.serializeTo (some (len ++ (cmd ++ ([lo, hi] ++ (data ++ rest))))) dataLen =
        some (true, some buf') ∧ buf'.take (sizeofMsgHead + c.strAppData.bytes.length) =
          c.frameWith msgLen (c.checkOf msgLen)) ↔
      (if msgLen.toNat < 2 ^ 31 then c.checkOf msgLen ^^^ word lo hi else 0) =
        c.checkOf msgLen := by
  rw [serializeTo_eq hlen hle rest hl hc hd, ← length_frameWith msgLen 0 c]
  have htake : ∀ k, (c.frameWith msgLen k ++ rest).take (c.frameWith msgLen 0).length =
      c.frameWith msgLen k := by
    intro k
    rw [length_frameWith, ← length_frameWith msgLen k, List.take_left]
  constructor
  · rintro ⟨buf', hrun, hframe⟩
    obtain rfl := Option.some.inj (Prod.mk.inj (Option.some.inj hrun)).2
    rw [htake] at hframe
    exact frameWith_inj.mp hframe
  · intro hcheck
    exact ⟨_, rfl, by rw [htake, hcheck]⟩

/-- The two serializers make the same frame exactly when it is shorter than `2 ^ 31` and the check
field of the array is zero before, or it is longer, but not longer than its length can say, and
its checksum is zero. -/
theorem agree_iff (hdata : dataLen.toNat ≤ buf.length)
    (hsize : sizeofMsgHead + c.strAppData.bytes.length ≤ dataLen.toNat) :
    c.Agree buf dataLen ↔
      (sizeofMsgHead + c.strAppData.bytes.length < 2 ^ 31 ∧ (buf.drop 6).take 2 = [0, 0]) ∨
        (2 ^ 31 ≤ sizeofMsgHead + c.strAppData.bytes.length ∧
          sizeofMsgHead + c.strAppData.bytes.length < 2 ^ 32 ∧
            c.checkOf (UInt32.ofNat (sizeofMsgHead + c.strAppData.bytes.length)) = 0) := by
  obtain ⟨len, cmd, data, rest, lo, hi, rfl, hl, hc, hd, hfield⟩ :=
    exists_parts (c := c) (Nat.le_trans hsize hdata)
  have hle : ∀ msgLen : UInt32, msgLen.toNat = sizeofMsgHead + c.strAppData.bytes.length →
      msgLen.toUInt64 ≤ dataLen := by
    intro msgLen hlen
    rw [UInt64.le_iff_toNat_le, UInt32.toNat_toUInt64, hlen]
    exact hsize
  have hzero : (([lo, hi] : Bytes) = [0, 0]) ↔ word lo hi = 0 := by
    rw [word_eq_zero_iff]
    simp
  rw [hfield, hzero]
  constructor
  · rintro ⟨msgLen, hlen, _, harr⟩
    have hcheck := (serializeTo_iff hlen (hle msgLen hlen) hl hc hd).mp harr
    have hlt := msgLen.toNat_lt
    rw [← hlen, UInt32.ofNat_toNat]
    split at hcheck
    · next hshort =>
        refine Or.inl ⟨hshort, ?_⟩
        rw [← UInt16.xor_right_inj (c.checkOf msgLen), hcheck, UInt16.xor_zero]
    · next hlong => exact Or.inr ⟨Nat.le_of_not_lt hlong, hlt, hcheck.symm⟩
  · intro h
    have hlen : (UInt32.ofNat (sizeofMsgHead + c.strAppData.bytes.length)).toNat =
        sizeofMsgHead + c.strAppData.bytes.length := by
      refine UInt32.toNat_ofNat_of_lt' ?_
      rcases h with ⟨hshort, _⟩ | ⟨_, hlong, _⟩
      · exact Nat.lt_trans hshort (by decide)
      · exact hlong
    refine ⟨_, hlen, serializeBs_frame c hlen,
      (serializeTo_iff hlen (hle _ hlen) hl hc hd).mpr ?_⟩
    rw [hlen]
    rcases h with ⟨hshort, hword⟩ | ⟨hlong, _, hcheck⟩
    · rw [if_pos hshort, hword, UInt16.xor_zero]
    · rw [if_neg (Nat.not_lt.mpr hlong), hcheck]

theorem agree_zero :
    Agree ⟨1, 0, 0, ⟨[104, 105, 106], 0⟩⟩ (List.replicate 16 0) 16 :=
  (agree_iff (by decide) (by decide)).mpr (Or.inl ⟨by decide, rfl⟩)

/-- What was in the check field of the array goes into the checksum. -/
theorem stale_check : ¬ Agree ⟨1, 0, 0, ⟨[], 0⟩⟩ [0, 0, 0, 0, 0, 0, 1, 0] 8 := by
  rintro ⟨msgLen, hlen, _, buf', hrun, hframe⟩
  obtain rfl : msgLen = 8 := UInt32.toNat_inj.mp hlen
  have hrun' : serializeTo (some [0, 0, 0, 0, 0, 0, 1, 0]) 8 ⟨1, 0, 0, ⟨[], 0⟩⟩ =
      some (true, some [0, 0, 0, 8, 0, 1, 9, 1]) := by decide
  obtain rfl := Option.some.inj (Prod.mk.inj (Option.some.inj (hrun'.symm.trans hrun))).2
  exact absurd hframe (by decide)

end Cmd

end LibC
