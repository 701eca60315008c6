import EagleMQ.Storage.Vendored

/-! The fields of the storage file, with the memory that a reader fills. A field that
was written is read back by both readers as it was, with the rest of the file left;
and whatever the file holds, nothing is written past the end of the destination. -/

namespace EagleMQ

/-- What `lzf_decompress` leaves in its output buffer, also where it returns 0. -/
class LzfOutput [Lzf] where
  written : List Byte → ℕ → List Byte
  length_le : ∀ input n, (written input n).length ≤ n
  written_of_decompress : ∀ {input data : List Byte} {n : ℕ}, Lzf.decompress input n = some data →
    written input n = data

/-- What the vendored decompressor has written, which is there where it returns 0 too. -/
@[reducible] def LzfOutput.vendored (htab : List Byte → ℕ → UInt32 → UInt32) : @LzfOutput (Lzf.vendored htab) :=
  @LzfOutput.mk (Lzf.vendored htab)
    (fun data n => match lzfDecompress data n with | .ok (_, out) => out | .error _ => [])
    (fun data n => by
      by_cases hdata : data = []
      · subst hdata
        exact Nat.zero_le _
      · obtain ⟨ok, out, _, _, hrun, hlen, _⟩ := Lzf.lzfDecompress_total hdata n
        rw [hrun]
        exact hlen)
    fun h => by rw [vendored_decompress htab h]

/-- `fread` of one item: what it writes, and the rest of the file where it returns 1. -/
def freadInto (n : ℕ) (file : List Byte) : List Byte × Option (List Byte) :=
  (file.take n, if n = 0 ∨ file.length < n then none else some (file.drop n))

/-- A word of the file, and the rest. -/
def readWord (file : List Byte) : Option (ℕ × List Byte) :=
  (freadInto 4 file).2.map fun rest => (u32 (ofList (freadInto 4 file).1) 0, rest)

section Into

variable [Lzf] [LzfOutput]

/-- `storage_read_data` with its destination: the bytes it writes there, and the rest
of the file where it succeeds. -/
def storageReadDataInto (maxlen : ℕ) (file : List Byte) : List Byte × Option (List Byte) :=
  match readWord file with
  | none => ([], none)
  | some (comprlen, file) =>
    match readWord file with
    | none => ([], none)
    | some (length, file) =>
      if (maxlen < length ∧ comprlen = 0) ∨ maxlen < comprlen then ([], none)
      else if comprlen ≠ 0 then
        match freadInto length file with
        | (_, none) => ([], none)
        | (compressed, some rest) =>
          (LzfOutput.written compressed comprlen, (Lzf.decompress compressed comprlen).map fun _ => rest)
      else freadInto length file

theorem storageReadDataInto_length_le (maxlen : ℕ) (file : List Byte) :
    (storageReadDataInto maxlen file).1.length ≤ maxlen := by
  unfold storageReadDataInto
  cases readWord file with
  | none => exact Nat.zero_le _
  | some word =>
    obtain ⟨comprlen, file⟩ := word
    dsimp only
    cases readWord file with
    | none => exact Nat.zero_le _
    | some word =>
      obtain ⟨length, file⟩ := word
      dsimp only
      split_ifs with hlimits hcompressed
      · exact Nat.zero_le _
      · simp only [not_or, not_lt] at hlimits
        unfold freadInto
        split_ifs
        · exact Nat.zero_le _
        · exact Nat.le_trans (LzfOutput.length_le ..) hlimits.2
      · simp only [not_or, not_and, not_not] at hlimits hcompressed
        have hfit : length ≤ maxlen := Nat.not_lt.mp fun hlt => hlimits.1 hlt hcompressed
        simp only [freadInto, List.length_take]
        omega

end Into

/-! ### The readers and their destinations -/

section Readers

variable {file : List Byte}

theorem storageRead_run (n : ℕ) (file : List Byte) : (StateT.run (storageRead n) file).run =
    .ok ((freadInto n file).2.map fun rest => ((freadInto n file).1, rest)) := by
  simp only [storageRead, StateT.run_bind, StateT.run_get, pure_bind, freadInto]
  split_ifs <;> rfl

/-- A reader goes on with what the first part has left, unless that fails. -/
theorem reader_bind {α β : Type} {p : Reader α} {k : α → Reader β} {v : Option (α × List Byte)}
    (hp : (StateT.run p file).run = .ok v) : (StateT.run (p >>= k) file).run =
      v.elim (.ok none) fun x => (StateT.run (k x.1) x.2).run := by
  rw [StateT.run_bind, OptionT.run_bind, hp]
  cases v <;> rfl

theorem readU32_run (file : List Byte) : (StateT.run readU32 file).run = .ok (readWord file) := by
  rw [readU32, reader_bind (storageRead_run 4 file), readWord]
  cases (freadInto 4 file).2 <;> rfl

variable [Lzf] [LzfOutput]

/-- The reader of the model returns what is written to the destination. -/
theorem storageReadData_run (maxlen : ℕ) (file : List Byte) : (StateT.run (storageReadData maxlen) file).run =
    .ok ((storageReadDataInto maxlen file).2.map
      fun rest => ((storageReadDataInto maxlen file).1, rest)) := by
  rw [storageReadData, reader_bind (readU32_run file), storageReadDataInto]
  cases readWord file with
  | none => rfl
  | some word =>
    obtain ⟨comprlen, file⟩ := word
    dsimp only [Option.elim]
    rw [reader_bind (readU32_run file)]
    cases readWord file with
    | none => rfl
    | some word =>
      obtain ⟨length, file⟩ := word
      dsimp only [Option.elim]
      split_ifs with hlimits hcompressed
      · rfl
      · rw [reader_bind (storageRead_run length file)]
        cases hread : freadInto length file with
        | mk compressed rest =>
          cases rest with
          | none => rfl
          | some rest =>
            dsimp only [Option.map, Option.elim]
            cases hdata : Lzf.decompress compressed comprlen with
            | none => rfl
            | some data =>
              rw [LzfOutput.written_of_decompress hdata]
              rfl
      · exact storageRead_run length file

/-- What was written is read back by both readers, in either form, and no reader of any
file writes past the end of its destination. -/
theorem codec_roundTrip [LawfulLzf] :
    (∀ data bytes rest : List Byte, data ≠ [] → data.length < 2147483648 →
      (storageWriteData data).run = .ok (some bytes) →
        (StateT.run storageReadDataObject (bytes ++ rest)).run = .ok (some (data, rest)) ∧
          ∀ maxlen, data.length ≤ maxlen → storageReadDataInto maxlen (bytes ++ rest) = (data, some rest)) ∧
      ∀ maxlen file, (storageReadDataInto maxlen file).1.length ≤ maxlen := by
  refine ⟨fun data bytes rest _ hlen hwrite => ?_, storageReadDataInto_length_le⟩
  have hshort : data.length < 4294967296 := by omega
  refine ⟨storageReadDataObject_takes hwrite hshort rest, fun maxlen hfit => ?_⟩
  have hread := storageReadData_takes hwrite hshort maxlen rest
  rw [storageReadData_run, fitted, if_pos hfit] at hread
  obtain ⟨rest', hrest, hpair⟩ := Option.map_eq_some_iff.mp (Except.ok.inj hread)
  obtain ⟨hdata, rfl⟩ := Prod.mk.inj hpair
  exact Prod.ext hdata hrest

end Readers

/-- A run of equal bytes, which is compressed, and two bytes, which are not. -/
theorem codec_roundTrip_repeated :
    (StateT.run (@storageReadDataObject Sample.lzf)
      ([24, 0, 0, 0, 9, 0, 0, 0, 1, 7, 7, 224, 11, 0, 1, 7, 7] ++ [StorageType.eof])).run =
        .ok (some (List.replicate 24 7, [StorageType.eof])) ∧
    @storageReadDataInto Sample.lzf (LzfOutput.vendored fun _ _ _ => 1) 32
      ([24, 0, 0, 0, 9, 0, 0, 0, 1, 7, 7, 224, 11, 0, 1, 7, 7] ++ [StorageType.eof]) =
        (List.replicate 24 7, some [StorageType.eof]) ∧
    @storageReadDataInto Sample.lzf (LzfOutput.vendored fun _ _ _ => 1) 32
      ([0, 0, 0, 0, 2, 0, 0, 0, 7, 8] ++ [StorageType.eof]) = ([7, 8], some [StorageType.eof]) := by
  have hlawful := vendored_lawful fun _ _ _ => 1
  obtain ⟨hread, -⟩ := @codec_roundTrip Sample.lzf (LzfOutput.vendored fun _ _ _ => 1) hlawful
  obtain ⟨hobject, hinto⟩ := hread (List.replicate 24 7)
    [24, 0, 0, 0, 9, 0, 0, 0, 1, 7, 7, 224, 11, 0, 1, 7, 7]
    [StorageType.eof] (by decide) (by decide) (by decide +kernel)
  obtain ⟨-, hraw⟩ := hread [7, 8] [0, 0, 0, 0, 2, 0, 0, 0, 7, 8] [StorageType.eof] (by decide)
    (by decide) rfl
  exact ⟨hobject, hinto 32 (by decide), hraw 32 (by decide)⟩

end EagleMQ
