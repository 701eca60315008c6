import EagleMQ.Lzf.Pack
import EagleMQ.Storage.Fields

/-! The vendored compressor in the place of the one that the storage is given: it keeps
the promises that the round trips of the storage rest on. -/

namespace EagleMQ

/-- `htab` is what the stack holds where `lzf_compress` puts its table, at each of its calls. -/
@[reducible] def Lzf.vendored (htab : List Byte → ℕ → UInt32 → UInt32) : Lzf where
  compress data n :=
    match lzfCompress (htab data n) data n with
    | .ok r => r
    | .error _ => none
  decompress data n :=
    match lzfDecompress data n with
    | .ok (true, out) => some out
    | _ => none

/-- The table starts full of ones. -/
@[reducible] def Sample.lzf : Lzf := Lzf.vendored fun _ _ _ => 1

variable (htab : List Byte → ℕ → UInt32 → UInt32)

theorem vendored_compress {data out : List Byte} {n : ℕ}
    (h : (Lzf.vendored htab).compress data n = some out) :
    lzfCompress (htab data n) data n = .ok (some out) := by
  change (match lzfCompress (htab data n) data n with | .ok r => r | .error _ => none) = some out at h
  split at h
  · rename_i r hr
    rw [hr, h]
  · cases h

theorem vendored_decompress {data out : List Byte} {n : ℕ}
    (h : (Lzf.vendored htab).decompress data n = some out) :
    lzfDecompress data n = .ok (true, out) := by
  change (match lzfDecompress data n with | .ok (true, out) => some out | _ => none) = some out at h
  split at h
  · rename_i o ho
    cases h
    exact ho
  · cases h

/-- One byte is not compressed. -/
theorem length_of_compress {data out : List Byte} {n : ℕ}
    (h : lzfCompress (htab data n) data n = .ok (some out)) : data.length ≠ 1 := fun hlen => by
  obtain ⟨b, rfl⟩ := List.length_eq_one_iff.mp hlen
  cases n with
  | zero => cases h
  | succ n => cases h

theorem vendored_lawful : @LawfulLzf (Lzf.vendored htab) := by
  refine @LawfulLzf.mk (Lzf.vendored htab) (fun {data out n} h => ?_) fun {data out n} h => ?_
  all_goals
    have hcompress := vendored_compress htab h
    obtain ⟨r, hr, hout⟩ := Lzf.lzfCompress_packed (length_of_compress htab hcompress) (htab data n) n
    cases hr.symm.trans hcompress
    obtain ⟨hne, hpacked, hlen⟩ := hout out rfl
  · exact hlen
  · have hrun := hpacked.decompress hne (Nat.le_refl data.length)
    show (match lzfDecompress out data.length with | .ok (true, out) => some out | _ => none) = some data
    rw [hrun]

end EagleMQ
