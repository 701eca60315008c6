import EagleMQ.Lzf.Format

/-! The compressor. Its output is at every moment the code of tokens for the input up
to the run that is open, the control byte of that run, and its literals. A match is
taken from the table whatever the table holds, since its bytes are compared; so the
result does not depend on what was on the stack. -/

namespace EagleMQ

namespace Lzf

open Prog Token

/-- It may give up, but reads and writes nothing out of bounds. -/
def GaveUp (e : Option Fault) : Prop := e = none

/-- A code for the first `n` bytes of the input. -/
def Packed (data : List Byte) (n : ℕ) (out : List Byte) : Prop := ∃ tokens, (∀ t ∈ tokens, Encodable t) ∧
  expand [] tokens = some (data.take n) ∧ out = encode tokens

/-- A code for what is before the open run, its control byte, and its literals. -/
structure Open (data : List Byte) (p : Packer) : Prop where
  lit_le : p.lit ≤ p.ip
  ip_le : p.ip ≤ data.length
  lit_max : p.lit ≤ maxLit
  out_eq : ∃ code ctrl, Packed data (p.ip - p.lit) code ∧
    p.out = code ++ ctrl :: (data.drop (p.ip - p.lit)).take p.lit

variable {data code out : List Byte} {room ip ref n len maxlen : ℕ} {p q : Packer} {t : Token Byte}

/-! ### Codes -/

theorem packed_nil (data : List Byte) : Packed data 0 [] :=
  ⟨[], fun _ h => (nomatch h), by rw [List.take_zero]; rfl, rfl⟩

theorem Packed.snoc (h : Packed data n code) (ht : Encodable t)
    (happly : apply (data.take n) t = some (data.take len)) :
    Packed data len (code ++ encodeToken t) := by
  obtain ⟨tokens, htokens, hexpand, rfl⟩ := h
  refine ⟨tokens ++ [t], ?_, ?_, ?_⟩
  · exact List.forall_mem_append.mpr ⟨htokens, List.forall_mem_singleton.mpr ht⟩
  · rw [expand_snoc hexpand, happly]
  · rw [encode, encode, List.flatMap_append, List.flatMap_singleton]

theorem Open.length_out (h : Open data p) : p.lit + 1 ≤ p.out.length := by
  obtain ⟨code, ctrl, -, hout⟩ := h.out_eq
  have hlit := h.lit_le
  have hip := h.ip_le
  rw [hout, List.length_append, List.length_cons, List.length_take, List.length_drop]
  omega

/-- A run starts after a code. -/
theorem Packed.opens (h : Packed data p.ip p.out) (hip : p.ip ≤ data.length) :
    Open data { p with lit := 0, out := p.out ++ [0] } where
  lit_le := Nat.zero_le _
  ip_le := hip
  lit_max := Nat.zero_le _
  out_eq := ⟨p.out, 0, h, by rw [List.take_zero]⟩

/-- The open run with one more byte of the input. -/
theorem Open.literal (h : Open data p) (hlit : p.lit < maxLit) (hip : p.ip < data.length) :
    Open data { p with ip := p.ip + 1, lit := p.lit + 1, out := p.out ++ [data[p.ip]] } where
  lit_le := Nat.succ_le_succ h.lit_le
  ip_le := hip
  lit_max := hlit
  out_eq := by
    obtain ⟨code, ctrl, hcode, hout⟩ := h.out_eq
    have hat : p.ip - p.lit + p.lit = p.ip := Nat.sub_add_cancel h.lit_le
    dsimp only
    rw [Nat.add_sub_add_right]
    refine ⟨code, ctrl, hcode, ?_⟩
    rw [hout, List.take_add_one, List.getElem?_drop, hat, List.getElem?_eq_getElem hip,
      List.append_assoc, List.cons_append]
    rfl

/-- The control byte of a run of literals is written. -/
theorem Packed.stops {start lit : ℕ} (h : Packed data start code) (hlit : lit ≤ maxLit)
    (hn : start + lit ≤ data.length)
    (hpos : lit ≠ 0) (ctrl : Byte) : Packed data (start + lit)
      ((code ++ ctrl :: (data.drop start).take lit).set code.length (UInt8.ofNat (lit + 255))) := by
  have hlen : ((data.drop start).take lit).length = lit := by
    rw [List.length_take, List.length_drop]
    omega
  have hctrl : UInt8.ofNat (lit + 255) = UInt8.ofNat (lit - 1) := by
    rw [← UInt8.toNat_inj]
    simp only [UInt8.toNat_ofNat']
    omega
  have hcode := h.snoc (t := .literal ((data.drop start).take lit))
    ⟨by omega, by omega⟩ (show _ = some (data.take (start + lit)) by rw [apply, List.take_add])
  rw [List.set_append_right _ _ (Nat.le_refl _), Nat.sub_self, List.set_cons_zero, hctrl]
  rwa [encodeToken, hlen] at hcode

/-- A copy of bytes that have been compared. -/
theorem Packed.copies (h : Packed data ip code) (href : ref < ip) (hoff : ip - ref - 1 < maxOff)
    (hge : 3 ≤ len)
    (hle : len ≤ maxRef) (hn : ip + len ≤ data.length) (heq : ∀ k < len, data[ref + k]? = data[ip + k]?) :
    Packed data (ip + len) (code ++ encodeToken (.copy (ip - ref - 1) len)) := by
  refine h.snoc ⟨hoff, hge, hle⟩ ?_
  have hlen : (data.take ip).length = ip := List.length_take_of_le (by omega)
  rw [apply, hlen, if_pos (by omega), show ip - (ip - ref - 1) - 1 = ref by omega]
  exact replay_take href hn heq

/-! ### Reads -/

section Reads

variable {Q : Byte → Packer → Prop} {E : Option Fault → Prop}

theorem wp_fetch (h : n < data.length) : wp (fetch data n) Q E p ↔ Q data[n] p := by
  rw [fetch, octet, List.getElem?_eq_getElem h]
  rfl

end Reads

variable {Q : Unit → Packer → Prop}

theorem hashFirst_spec (h : p.ip + 1 < data.length) (hQ : ∀ v, Q () { p with hval := v }) :
    wp (hashFirst data) Q GaveUp p := by
  rw [hashFirst, wp_bind, wp_get, wp_bind, wp_fetch (by omega), wp_bind, wp_fetch h]
  exact hQ _

theorem hashNext_spec {Q : ℕ → Packer → Prop} (h : p.ip + 2 < data.length)
    (hQ : ∀ r v tab, Q r { p with hval := v, htab := tab }) : wp (hashNext data) Q GaveUp p := by
  rw [hashNext, wp_bind, wp_get, wp_bind, wp_fetch h]
  exact hQ _ _ _

/-- Three bytes agree. -/
def Matches (data : List Byte) (ip ref : ℕ) : Prop := ref < ip ∧ ip - ref - 1 < maxOff ∧
  ∀ k < 3, data[ref + k]? = data[ip + k]?

theorem getElem?_congr {i j : ℕ} (hi : i < data.length) (hj : j < data.length) (h : data[i] = data[j]) :
    data[i]? = data[j]? := by
  rw [List.getElem?_eq_getElem hi, List.getElem?_eq_getElem hj, h]

theorem matchesAt_spec (h : ip + 2 < data.length) :
    wp (matchesAt data ip ref) (fun b q => q = p ∧ (b = true → Matches data ip ref)) GaveUp p := by
  rw [matchesAt]
  refine wp_ite (fun hnear => ?_) fun _ => ⟨rfl, fun h => (nomatch h)⟩
  have href : ref < ip := hnear.1
  rw [wp_bind, wp_fetch (by omega), wp_bind, wp_fetch h]
  refine wp_ite (fun htwo => ?_) fun _ => ⟨rfl, fun h => (nomatch h)⟩
  rw [wp_bind, wp_fetch (by omega), wp_bind, wp_fetch (by omega), wp_bind, wp_fetch (by omega),
    wp_bind, wp_fetch (by omega)]
  refine ⟨rfl, fun hb => ⟨hnear.1, hnear.2.1, fun k hk => ?_⟩⟩
  obtain ⟨hzero, hone⟩ := of_decide_eq_true hb
  obtain _ | _ | _ | k := k
  · exact getElem?_congr _ _ hzero
  · exact getElem?_congr _ _ hone
  · exact getElem?_congr _ _ htwo
  · omega

/-! ### The length of a match -/

/-- The bytes from `ref` and from `ip` on that have been found equal. -/
def Agree (data : List Byte) (ip ref len : ℕ) : Prop := ∀ k < len, data[ref + k]? = data[ip + k]?

theorem Agree.succ (h : Agree data ip ref len) (hip : ip + len < data.length) (href : ref + len < data.length)
    (heq : data[ref + len] = data[ip + len]) : Agree data ip ref (len + 1) := fun k hk => by
  obtain hlt | rfl := Nat.lt_succ_iff_lt_or_eq.mp hk
  · exact h k hlt
  · exact getElem?_congr href hip heq

theorem unrolled_spec (href : ref < ip) : ∀ (n : ℕ) {len : ℕ}, Agree data ip ref (len + 1) →
    ip + len + n < data.length →
    wp (unrolled data ip ref n len) (fun x q => q = p ∧ Agree data ip ref (if x.1 then x.2 + 1 else x.2) ∧
      len ≤ x.2 ∧ x.2 ≤ len + n ∧ (x.1 = true → x.2 = len + n) ∧ (x.1 = false → len < x.2)) GaveUp p
  | 0, len, hagree, _ => ⟨rfl, hagree, Nat.le_refl _, Nat.le_refl _, fun _ => rfl, fun h => (nomatch h)⟩
  | n + 1, len, hagree, hlen => by
    rw [unrolled, wp_bind, wp_fetch (by omega), wp_bind, wp_fetch (by omega)]
    refine wp_ite (fun _ => ?_) fun heq => ?_
    · exact ⟨rfl, hagree, Nat.le_succ _, by omega, fun h => (nomatch h), fun _ => Nat.lt_succ_self _⟩
    · have hnext : Agree data ip ref (len + 1 + 1) := hagree.succ (by omega) (by omega) (not_not.mp heq)
      refine wp_mono (unrolled_spec href n hnext (by omega))
        (fun x q ⟨hq, hag, hge, hle, hthrough, hbroke⟩ => ?_)
        fun _ h => h
      exact ⟨hq, hag, by omega, by omega, fun h => by have := hthrough h; omega, fun h => by have := hbroke h; omega⟩

theorem scan_spec (href : ref < ip) : ∀ {n len : ℕ}, 0 < n → Agree data ip ref (len + 1) →
    ip + maxlen ≤ data.length →
    maxlen < n + len → wp (scan data ip ref maxlen n len)
      (fun m q => q = p ∧ Agree data ip ref m ∧ len < m ∧ (m ≤ maxlen ∨ m = len + 1)) GaveUp p
  | n + 1, len, _, hagree, hmax, hn => by
    rw [scan]
    refine wp_ite (fun hlt => ?_) fun _ => ⟨rfl, hagree, Nat.lt_succ_self _, .inr rfl⟩
    rw [wp_bind, wp_fetch (by omega), wp_bind, wp_fetch (by omega)]
    refine wp_ite (fun heq => ?_) fun _ => ⟨rfl, hagree, Nat.lt_succ_self _, .inr rfl⟩
    refine wp_mono (scan_spec href (by omega) (hagree.succ (by omega) (by omega) heq) hmax (by omega))
      (fun m q ⟨hq, hag, hge, hle⟩ => ⟨hq, hag, by omega, by omega⟩) fun _ h => h

/-- The match ends with the input at the latest, although the unrolled comparisons do not
look at `maxlen`. -/
theorem matchLength_spec (h : Matches data ip ref) (hpos : 0 < maxlen) (hmax : ip + maxlen + 2 ≤ data.length)
    (hle : maxlen ≤ maxRef) : wp (matchLength data ip ref maxlen)
      (fun m q => q = p ∧ Agree data ip ref m ∧ 3 ≤ m ∧ m ≤ maxRef ∧ ip + m ≤ data.length) GaveUp p := by
  have hagree : Agree data ip ref 3 := h.2.2
  rw [matchLength]
  refine wp_ite (fun hlong => ?_) fun _ => ?_
  · rw [wp_bind]
    refine wp_mono (unrolled_spec h.1 16 hagree (by omega)) (fun x q hq => ?_)
      fun _ h => h
    obtain ⟨hq, hag, hge, hle', hthrough, hbroke⟩ := hq
    obtain ⟨_ | _, m⟩ := x
    · have hm := hbroke rfl
      simp only [maxRef] at hle ⊢
      exact ⟨hq, hag, by omega, by omega, by omega⟩
    · have hm : m = 18 := hthrough rfl
      subst hm
      show wp (scan data ip ref maxlen (maxlen + 1) 18) _ _ _
      refine wp_mono (scan_spec (p := q) h.1 (Nat.succ_pos _) hag (by omega) (by omega))
        (fun m r hr => ?_) fun _ h => h
      obtain ⟨hr, hagm, hgem, hlem⟩ := hr
      simp only [maxRef] at hle ⊢
      exact ⟨hr.trans hq, hagm, by omega, by omega, by omega⟩
  · refine wp_mono (scan_spec h.1 (Nat.succ_pos _) hagree (by omega) (by omega))
      (fun m q hq => ?_) fun _ h => h
    obtain ⟨hq, hag, hge, hlem⟩ := hq
    simp only [maxRef] at hle ⊢
    exact ⟨hq, hag, by omega, by omega, by omega⟩

/-! ### Writes -/

theorem put_spec {b : Byte} (h : p.out.length < room) (hQ : Q () { p with out := p.out ++ [b] }) :
    wp (put room b) Q GaveUp p := by
  rw [put, wp_bind, wp_get, if_pos h]
  exact hQ

theorem Open.split (h : Open data p) : ∃ code ctrl, Packed data (p.ip - p.lit) code ∧
    p.out = code ++ ctrl :: (data.drop (p.ip - p.lit)).take p.lit ∧
    p.out.length - p.lit - 1 = code.length := by
  obtain ⟨code, ctrl, hcode, hout⟩ := h.out_eq
  have hlit := h.lit_le
  have hip := h.ip_le
  refine ⟨code, ctrl, hcode, hout, ?_⟩
  rw [hout, List.length_append, List.length_cons, List.length_take, List.length_drop]
  omega

/-- A run of literals is ended. -/
theorem stopRun_spec (h : Open data p) (hpos : p.lit ≠ 0) (hroom : p.out.length - p.lit - 1 < room)
    (hQ : ∀ out, Packed data p.ip out → out.length = p.out.length → Q () { p with out := out }) :
    wp (stopRun room) Q GaveUp p := by
  obtain ⟨code, ctrl, hcode, hout, hat⟩ := h.split
  have hlit := h.lit_le
  have hip := h.ip_le
  rw [stopRun, wp_bind, wp_get, if_pos hroom, wp_set, hat]
  refine hQ _ ?_ (List.length_set ..)
  have hstops := hcode.stops h.lit_max (by omega) hpos ctrl
  rwa [Nat.sub_add_cancel hlit, ← hout] at hstops

/-- The run that is open is ended, or forgotten if it has no literals. -/
theorem endRun_spec (h : Open data p) (hroom : p.out.length - p.lit - 1 < room)
    (hQ : ∀ out, Packed data p.ip out →
    out.length = p.out.length - (if p.lit = 0 then 1 else 0) → Q () { p with out := out }) :
    wp (stopRun room) (fun _ q => wp undoRun Q GaveUp q) GaveUp p := by
  by_cases hzero : p.lit = 0
  · obtain ⟨code, ctrl, hcode, hout, hat⟩ := h.split
    rw [stopRun, wp_bind, wp_get, if_pos hroom, wp_set, undoRun, wp_modify, if_pos hzero, hat]
    have hlast : (p.out.set code.length (UInt8.ofNat (p.lit + 255))).dropLast = code := by
      rw [hout, hzero, List.take_zero, List.set_append_right _ _ (Nat.le_refl _), Nat.sub_self,
        List.set_cons_zero,
        List.dropLast_concat]
    dsimp only
    rw [hlast]
    refine hQ code ?_ ?_
    · rwa [hzero, Nat.sub_zero] at hcode
    · rw [if_pos hzero, hout, List.length_append, hzero]
      simp
  · refine stopRun_spec h hzero hroom fun out hout hlen => ?_
    rw [undoRun, wp_modify, if_neg hzero]
    exact hQ out hout (by rw [hlen, if_neg hzero, Nat.sub_zero])

/-- A literal byte is copied, and a run that is full is ended. -/
theorem literal_spec (h : Open data p) (hlit : p.lit < maxLit) (hip : p.ip < data.length)
    (hroom : p.out.length < room) :
    wp (literal data room) (fun _ q => Open data q ∧ q.lit < maxLit ∧ q.ip = p.ip + 1 ∧
      q.lit = (if p.lit + 1 = maxLit then 0 else p.lit + 1) ∧
      q.out.length = p.out.length + 1 + (if p.lit + 1 = maxLit then 1 else 0)) GaveUp p := by
  have hopen := h.literal hlit hip
  rw [Lzf.literal, wp_bind, wp_get, wp_bind, wp_fetch hip, wp_bind]
  refine put_spec hroom ?_
  rw [wp_bind, wp_modify]
  refine wp_ite (fun hfull => ?_) fun hmore => ?_
  · rw [wp_bind]
    refine stopRun_spec hopen (Nat.succ_ne_zero _) ?_ fun out hout hlen => ?_
    · simp only [List.length_append, List.length_singleton]
      omega
    · rw [List.length_append, List.length_singleton] at hlen
      rw [startRun, wp_modify, if_pos hfull]
      refine ⟨hout.opens hip, Nat.succ_pos 31, rfl, rfl, ?_⟩
      rw [List.length_append, List.length_singleton, hlen, if_pos hfull]
  · rw [wp_pure, if_neg hmore, if_neg hmore]
    refine ⟨hopen, ?_, rfl, rfl, ?_⟩
    · show p.lit + 1 < maxLit
      omega
    · rw [List.length_append, List.length_singleton]

theorem putRef_spec {off : ℕ} (hge : 3 ≤ len) (hroom : p.out.length + 3 ≤ room)
    (hQ : Q () { p with out := p.out ++ encodeToken (.copy off len) }) :
    wp (putRef room off (len - 2)) Q GaveUp p := by
  rw [encodeToken] at hQ
  rw [putRef]
  by_cases hshort : len < 9
  · rw [if_pos (show len - 2 < 7 by omega), wp_bind]
    rw [if_pos hshort] at hQ
    refine put_spec (by omega) (put_spec ?_ ?_)
    · rw [List.length_append, List.length_singleton]
      omega
    · simpa only [List.append_assoc, List.singleton_append] using hQ
  · rw [if_neg (show ¬len - 2 < 7 by omega), wp_bind]
    simp only [wp_bind]
    rw [if_neg hshort] at hQ
    refine put_spec (by omega) (put_spec ?_ (put_spec ?_ ?_))
    · rw [List.length_append, List.length_singleton]
      omega
    · simp only [List.length_append, List.length_singleton]
      omega
    · simpa only [List.append_assoc, List.cons_append, List.nil_append, show len - 2 - 7 =
        len - 9 by omega] using hQ

theorem rehash_spec (hge : 2 ≤ ip) (hip : ip + 2 < data.length)
    (hQ : ∀ v tab, Q () { p with ip := ip, hval := v, htab := tab }) :
    wp (rehash data ip) Q GaveUp p := by
  rw [rehash, wp_bind, wp_modify, wp_bind]
  refine hashFirst_spec (show ip - 2 + 1 < data.length by omega) fun v => ?_
  rw [wp_bind]
  refine hashNext_spec (show ip - 2 + 2 < data.length by omega) fun _ v tab => ?_
  rw [wp_bind, wp_modify, wp_bind]
  refine hashNext_spec (show ip - 1 + 2 < data.length by omega) fun _ v tab => ?_
  exact hQ v tab

/-- A match is taken. -/
theorem backref_spec (h : Open data p) (hip : p.ip + 2 < data.length) (hmatch : Matches data p.ip ref) :
    wp (backref data room ref) (fun _ q => Open data q ∧ q.lit < maxLit ∧ p.ip < q.ip) GaveUp p := by
  rw [backref, wp_bind, wp_get]
  dsimp only
  refine wp_ite (fun _ => rfl) fun hroom => ?_
  have hopen := h.length_out
  have hone : (if p.lit = 0 then 1 else 0) ≤ 1 := by split_ifs <;> omega
  have hstop : p.out.length - p.lit - 1 < room := by omega
  simp only [wp_bind]
  refine endRun_spec h hstop fun out hout hlen => ?_
  refine wp_mono (matchLength_spec hmatch ?_ ?_ (Nat.min_le_right _ _))
    (fun len q hq => ?_) fun _ h => h
  · simp only [maxRef]
    omega
  · omega
  obtain ⟨hq, hagree, hge, hle, hend⟩ := hq
  have hip' : p.ip + 1 + (len - 2 + 1) = p.ip + len := by omega
  subst hq
  rw [hip']
  refine putRef_spec hge (by dsimp only; omega) ?_
  have hcode := hout.copies hmatch.1 hmatch.2.1 hge hle hend hagree
  rw [startRun, wp_modify, wp_modify]
  have hnext : ∀ v tab, Open data
      ⟨p.ip + len, out ++ encodeToken (.copy (p.ip - ref - 1) len) ++ [0], 0, v, tab⟩ :=
    fun v tab => Packed.opens (p := ⟨p.ip + len, out ++ encodeToken (.copy (p.ip - ref - 1) len), 0,
      v, tab⟩) hcode hend
  refine wp_ite (fun hmore => ?_) fun _ => ?_
  · exact rehash_spec (by omega) hmore fun v tab => ⟨hnext v tab, Nat.succ_pos 31, by dsimp only; omega⟩
  · exact ⟨hnext _ _, Nat.succ_pos 31, by dsimp only; omega⟩

/-! ### The loops -/

theorem packStep_spec (h : Open data p) (hlit : p.lit < maxLit) (hip : p.ip + 2 < data.length) :
    wp (packStep data room) (fun _ q => Open data q ∧ q.lit < maxLit ∧ p.ip < q.ip) GaveUp p := by
  rw [packStep, wp_bind]
  refine hashNext_spec hip fun ref v tab => ?_
  have hopen : Open data { p with hval := v, htab := tab } := ⟨h.lit_le, h.ip_le, h.lit_max, h.out_eq⟩
  rw [wp_bind, wp_get, wp_bind]
  refine wp_mono (matchesAt_spec hip) (fun b q ⟨hq, hb⟩ => ?_) fun _ h => h
  subst hq
  refine wp_ite (fun htrue => backref_spec hopen hip (hb htrue)) fun _ => ?_
  refine wp_ite (fun _ => rfl) fun hroom => ?_
  refine wp_mono (literal_spec hopen hlit (show p.ip < data.length by omega) (Nat.not_le.mp hroom))
    (fun _ q ⟨hq, hql, hqip, _⟩ => ⟨hq, hql, ?_⟩) fun _ h => h
  rw [hqip]
  exact Nat.lt_succ_self _

theorem packLoop_spec : ∀ {n : ℕ} {p : Packer}, Open data p → p.lit < maxLit → data.length < n + p.ip →
    wp (packLoop data room n) (fun _ q => Open data q ∧ q.lit < maxLit ∧ data.length ≤ q.ip + 2) GaveUp p
  | 0, p, h, _, hn => absurd h.ip_le (by omega)
  | n + 1, p, h, hlit, hn => by
    rw [packLoop, wp_bind, wp_get]
    refine wp_ite (fun hip => ?_) fun hip => ⟨h, hlit, Nat.not_lt.mp hip⟩
    rw [wp_bind]
    exact wp_mono (packStep_spec h hlit hip)
      (fun _ q ⟨hq, hql, hqip⟩ => packLoop_spec hq hql (by omega)) fun _ h => h

/-- The last two bytes at most need three bytes of room. -/
theorem tailLoop_spec : ∀ {n : ℕ} {p : Packer}, Open data p → p.lit < maxLit → data.length < n + p.ip →
    data.length ≤ p.ip + 2 →
    p.out.length + (data.length - p.ip) + (if maxLit ≤ p.lit + (data.length - p.ip) then 1 else 0) ≤ room →
    wp (tailLoop data room n) (fun _ q => Open data q ∧ q.ip = data.length ∧ q.out.length ≤ room) GaveUp p
  | 0, p, h, _, hn, _, _ => absurd h.ip_le (by omega)
  | n + 1, p, h, hlit, hn, hlast, hroom => by
    rw [tailLoop, wp_bind, wp_get]
    refine wp_ite (fun hip => ?_) fun hip => ⟨h, Nat.le_antisymm h.ip_le (Nat.not_lt.mp hip), by omega⟩
    rw [wp_bind]
    refine wp_mono (literal_spec h hlit hip (by omega))
      (fun _ q ⟨hq, hql, hqip, hqlit, hqlen⟩ => ?_) fun _ h => h
    refine tailLoop_spec hq hql (by omega) (by omega) ?_
    by_cases hfull : p.lit + 1 = maxLit
    · rw [if_pos hfull] at hqlit hqlen
      rw [if_pos (show maxLit ≤ p.lit + (data.length - p.ip) by omega)] at hroom
      rw [hqip, hqlit, hqlen, if_neg (by simp only [maxLit]; omega)]
      omega
    · rw [if_neg hfull] at hqlit hqlen
      have hsum : q.lit + (data.length - q.ip) = p.lit + (data.length - p.ip) := by omega
      rw [hsum]
      omega

/-- The whole input is packed, or there is no room for it. -/
theorem pack_spec (hdata : 2 ≤ data.length) (htab : UInt32 → UInt32) :
    wp (pack data room) (fun _ q => Packed data data.length q.out ∧ q.out.length ≤ room) GaveUp
      ⟨0, [], 0, 0, htab⟩ := by
  have hstart := (packed_nil data).opens (p := ⟨0, [], 0, 0, htab⟩) (Nat.zero_le _)
  rw [pack, startRun, wp_bind, wp_modify, wp_bind]
  refine hashFirst_spec (show 0 + 1 < data.length by omega) fun v => ?_
  have hopen : Open data ⟨0, [0], 0, v, htab⟩ := ⟨hstart.lit_le, hstart.ip_le, hstart.lit_max, hstart.out_eq⟩
  rw [wp_bind]
  refine wp_mono (packLoop_spec hopen (Nat.succ_pos 31) (by dsimp only; omega))
    (fun _ q ⟨hq, hlit, hlast⟩ => ?_) fun _ h => h
  rw [wp_bind, wp_get]
  refine wp_ite (fun _ => rfl) fun hfits => ?_
  rw [wp_bind]
  refine wp_mono (tailLoop_spec hq hlit (by omega) hlast (by split_ifs <;> omega))
    (fun _ r ⟨hr, hip, hlen⟩ => ?_) fun _ h => h
  have hpos := hr.length_out
  rw [wp_bind]
  refine endRun_spec hr (by omega) fun out hout hsize => ⟨?_, ?_⟩
  · rwa [hip] at hout
  · dsimp only
    omega

/-! ### `lzf_compress` -/

theorem Packed.decompress (h : Packed data data.length out) (hne : data ≠ []) (hroom : data.length ≤ room) :
    lzfDecompress out room = .ok (true, data) := by
  obtain ⟨tokens, htokens, hexpand, rfl⟩ := h
  rw [List.take_length] at hexpand
  refine lzfDecompress_encode (fun hnil => hne ?_) htokens hexpand hroom
  rw [hnil] at hexpand
  exact (Option.some.inj hexpand).symm

theorem lzfCompress_packed (hdata : data.length ≠ 1) (htab : UInt32 → UInt32) (room : ℕ) :
    ∃ r, lzfCompress htab data room = .ok r ∧ ∀ out, r = some out →
      data ≠ [] ∧ Packed data data.length out ∧ out.length ≤ room := by
  unfold lzfCompress
  split_ifs with hnone
  · exact ⟨none, rfl, fun _ h => (nomatch h)⟩
  · have hne : data ≠ [] := fun h => hnone (.inl h)
    have hlen : 2 ≤ data.length := by
      have := List.length_pos_iff.mpr hne
      omega
    have hspec := @pack_spec data room hlen htab
    unfold wp at hspec
    split at hspec
    · rename_i p hp
      rw [hp]
      exact ⟨some p.out, rfl, fun out h => by cases h; exact ⟨hne, hspec⟩⟩
    · rename_i e he
      cases hspec
      rw [he]
      exact ⟨none, rfl, fun _ h => (nomatch h)⟩

/-- The hash of the first two bytes is computed before the length is looked at. -/
theorem lzfCompress_one (htab : UInt32 → UInt32) (b : Byte) (room : ℕ) :
    lzfCompress htab [b] (room + 1) = .error .overread :=
  rfl

/-- Whatever the table holds, `lzf_compress` stays in bounds, and what it returns fits the
room and is decompressed to the input. -/
theorem lzf_roundTrip (hdata : data.length ≠ 1) (htab : UInt32 → UInt32) (room : ℕ) : ∃ r,
    lzfCompress htab data room = .ok r ∧ ∀ out, r = some out → out.length ≤ room ∧
      ∀ n, data.length ≤ n → lzfDecompress out n = .ok (true, data) := by
  obtain ⟨r, hr, hout⟩ := lzfCompress_packed hdata htab room
  refine ⟨r, hr, fun out h => ?_⟩
  obtain ⟨hne, hpacked, hlen⟩ := hout out h
  exact ⟨hlen, fun n hn => hpacked.decompress hne hn⟩

/-- A text with a match that overlaps what it produces. -/
theorem lzf_roundTrip_repeated :
    lzfCompress (fun _ => 1) (List.replicate 16 7) 12 = .ok (some [1, 7, 7, 224, 3, 0, 1, 7, 7]) ∧
    ∃ r, lzfCompress (fun _ => 1) (List.replicate 16 7) 12 = .ok r ∧ ∀ out, r = some out → out.length ≤ 12 ∧
      ∀ n, (List.replicate 16 (7 : Byte)).length ≤ n →
        lzfDecompress out n = .ok (true, List.replicate 16 7) :=
  ⟨by decide +kernel, lzf_roundTrip (by decide) (fun _ => 1) 12⟩

end Lzf

end EagleMQ
