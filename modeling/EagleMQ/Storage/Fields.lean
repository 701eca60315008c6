import EagleMQ.Storage
import EagleMQ.Lib.Takes

/-! The fields of the storage file. What `storage_write_data` has written is read
back as it was, if it fits the field, and the rest of the file is left. -/

namespace EagleMQ

/-- What the vendored compressor promises: its output fits the room that it was
given, and expands to the input when the length of the input is asked for. -/
class LawfulLzf [Lzf] : Prop where
  length_le : ∀ {data out : List Byte} {n : ℕ}, Lzf.compress data n = some out → out.length ≤ n
  decompress_compress : ∀ {data out : List Byte} {n : ℕ}, Lzf.compress data n = some out →
    Lzf.decompress out data.length = some data

/-! ### Numbers -/

theorem toNat_ofNat_byte (v : ℕ) : (UInt8.ofNat v).toNat = v % 256 := by simp

theorem u32_leBytes {v : ℕ} (hv : v < 4294967296) : u32 (ofList (leBytes 4 v)) 0 = v := by
  simp only [u32, u16, leBytes, ofList, List.getD_cons_zero, List.getD_cons_succ, Nat.zero_add, Nat.reduceAdd,
    toNat_ofNat_byte]
  omega

theorem u64_short {v : ℕ} (hv : v < 4294967296) : u64 (ofList (leBytes 4 v)) 0 = v := by
  have hhigh : u32 (ofList (leBytes 4 v)) 4 = 0 := by
    simp [u32, u16, leBytes, ofList]
  rw [u64, Nat.zero_add, hhigh, u32_leBytes hv]
  rfl

theorem u64_leBytes {v : ℕ} (hv : v < 18446744073709551616) : u64 (ofList (leBytes 8 v)) 0 = v := by
  simp only [u64, u32, u16, leBytes, ofList, List.getD_cons_zero, List.getD_cons_succ, Nat.zero_add,
    Nat.reduceAdd,
    toNat_ofNat_byte]
  omega

/-! ### Readers -/

/-- What a field of `maxlen` bytes takes. -/
def fitted (maxlen : ℕ) (data : List Byte) : Option (List Byte) :=
  if data.length ≤ maxlen then some data else none

section Readers

variable {data bytes : List Byte} {n maxlen : ℕ}

theorem storageRead_takes (hn : data.length = n) (hdata : data ≠ []) :
    Takes (storageRead n) data (some data) := by
  subst hn
  intro rest
  have hpos : ¬(data.length = 0 ∨ (data ++ rest).length < data.length) := by
    simp [hdata]
  have hrun : (StateT.run (storageRead data.length) (data ++ rest)).run =
      (if data.length = 0 ∨ (data ++ rest).length < data.length then .ok none
        else .ok (some ((data ++ rest).take data.length, (data ++ rest).drop data.length))) := by
    simp only [storageRead, StateT.run_bind, StateT.run_get, pure_bind]
    split_ifs
    · rfl
  rw [hrun, if_neg hpos]
  simp

theorem readU32_takes (hn : n < 4294967296) : Takes readU32 (leBytes 4 n) (some n) :=
  (takes_bind_nil (storageRead_takes (length_leBytes 4 n) (by simp [leBytes])) fun _ _ => takes_pure _).congr
    (by simp [u32_leBytes hn])

theorem storageReadType_takes (type : Byte) : Takes storageReadType [type] (some type) :=
  (takes_bind_nil (storageRead_takes (rfl : [type].length = 1) (by simp)) fun _ _ => takes_pure _).congr rfl

theorem storageWrite_some (h : (storageWrite data).run = .ok (some bytes)) : bytes = data ∧ data ≠ [] := by
  unfold storageWrite at h
  split_ifs at h with hdata
  · exact nomatch h
  · exact ⟨(Option.some.inj (Except.ok.inj h)).symm, hdata⟩

/-- The result of a step of `storage_save` that succeeds. -/
theorem saved_bind {α β : Type} {x : StorageM α} {f : α → StorageM β} {b : β}
    (h : (x >>= f).run = .ok (some b)) : ∃ a, x.run = .ok (some a) ∧ (f a).run = .ok (some b) := by
  rw [OptionT.run_bind] at h
  cases hx : x.run with
  | error e => rw [hx] at h; exact nomatch h
  | ok a =>
    rw [hx] at h
    cases a with
    | none => exact nomatch h
    | some a => exact ⟨a, rfl, h⟩

theorem saved_pure {α : Type} {a b : α} (h : (pure a : StorageM α).run = .ok (some b)) : b = a :=
  (Option.some.inj (Except.ok.inj h)).symm

variable [Lzf] [LawfulLzf]

/-- The two forms of a field: as it is, or compressed. -/
theorem storageWriteData_some (h : (storageWriteData data).run = .ok (some bytes)) :
    data ≠ [] ∧ bytes = leBytes 4 0 ++ leBytes 4 data.length ++ data ∨
    ∃ out, out ≠ [] ∧ out.length ≤ data.length - 4 ∧ 4 < data.length ∧
    Lzf.decompress out data.length = some data ∧
      bytes = leBytes 4 data.length ++ leBytes 4 out.length ++ out := by
  have hraw : (storageWriteRaw data).run = .ok (some bytes) →
      data ≠ [] ∧ bytes = leBytes 4 0 ++ leBytes 4 data.length ++ data := fun h => by
    obtain ⟨out, hout, h⟩ := saved_bind h
    obtain ⟨rfl, hdata⟩ := storageWrite_some hout
    exact ⟨hdata, saved_pure h⟩
  unfold storageWriteData at h
  split_ifs at h with hlen
  · exact .inl (hraw h)
  · cases hc : Lzf.compress data (data.length - 4) with
    | none =>
      rw [hc] at h
      exact .inl (hraw h)
    | some out =>
      rw [hc] at h
      obtain ⟨out', hout, h⟩ := saved_bind h
      obtain ⟨rfl, hne⟩ := storageWrite_some hout
      exact .inr ⟨out', hne, LawfulLzf.length_le hc, Nat.not_le.mp hlen,
        LawfulLzf.decompress_compress hc, saved_pure h⟩

theorem storageReadData_takes (h : (storageWriteData data).run = .ok (some bytes))
    (hlen : data.length < 4294967296)
    (maxlen : ℕ) : Takes (storageReadData maxlen) bytes (fitted maxlen data) := by
  rcases storageWriteData_some h with ⟨hne, rfl⟩ | ⟨out, hne, hout, hlong, hdec, rfl⟩
  all_goals
    rw [List.append_assoc]
    refine (takes_bind (readU32_takes (by omega)) fun _ h0 => takes_bind (w := fun _ => fitted maxlen data)
      (readU32_takes (by omega)) fun _ hl => ?_).congr rfl
    obtain rfl := Option.some.inj h0
    obtain rfl := Option.some.inj hl
  · by_cases hfit : data.length ≤ maxlen
    · rw [fitted, if_pos hfit, if_neg (by omega), if_neg (by simp)]
      exact storageRead_takes rfl hne
    · rw [fitted, if_neg hfit, if_pos (by omega)]
      exact takes_failure _
  · by_cases hfit : data.length ≤ maxlen
    · rw [fitted, if_pos hfit, if_neg (by omega), if_pos (by omega)]
      refine (takes_bind_nil (w := fun _ => some data) (storageRead_takes rfl hne) fun _ ho => ?_).congr rfl
      obtain rfl := Option.some.inj ho
      rw [hdec]
      exact takes_pure data
    · rw [fitted, if_neg hfit, if_pos (by omega)]
      exact takes_failure _

theorem storageReadDataObject_takes (h : (storageWriteData data).run = .ok (some bytes))
    (hlen : data.length < 4294967296) : Takes storageReadDataObject bytes (some data) := by
  rcases storageWriteData_some h with ⟨hne, rfl⟩ | ⟨out, hne, hout, hlong, hdec, rfl⟩
  all_goals
    rw [List.append_assoc]
    refine (takes_bind (readU32_takes (by omega)) fun _ h0 => takes_bind (w := fun _ => some data)
      (readU32_takes (by omega)) fun _ hl => ?_).congr rfl
    obtain rfl := Option.some.inj h0
    obtain rfl := Option.some.inj hl
  · rw [if_neg (by simp)]
    exact storageRead_takes rfl hne
  · rw [if_pos (by omega)]
    refine (takes_bind_nil (w := fun _ => some data) (storageRead_takes rfl hne) fun _ ho => ?_).congr rfl
    obtain rfl := Option.some.inj ho
    rw [hdec]
    dsimp only
    rw [if_neg (Nat.lt_irrefl _)]
    exact takes_pure data

end Readers

end EagleMQ
