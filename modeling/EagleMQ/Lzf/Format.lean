import EagleMQ.Lzf

/-! The compressed format. A token is a control byte and what belongs to it, and the
bytes of a token say which one it is. `lzf_decompress` takes exactly the codes of
token sequences that expand to a text within the room, and whatever it is given it
reads and writes nothing out of bounds. -/

namespace EagleMQ

namespace Lzf

open Token

/-- A run of 1 to 32 bytes, or a copy of 3 to 264 bytes from at most 8192 back. -/
def Encodable : Token Byte → Prop
  | .literal run => 1 ≤ run.length ∧ run.length ≤ maxLit
  | .copy off len => off < maxOff ∧ 3 ≤ len ∧ len ≤ maxRef

def encodeToken : Token Byte → List Byte
  | .literal run => UInt8.ofNat (run.length - 1) :: run
  | .copy off len =>
    if len < 9 then [UInt8.ofNat (off >>> 8 + (len - 2) <<< 5), UInt8.ofNat off]
    else [UInt8.ofNat (off >>> 8 + 7 <<< 5), UInt8.ofNat (len - 9), UInt8.ofNat off]

def encode (tokens : List (Token Byte)) : List Byte := tokens.flatMap encodeToken

/-- The first token of a code, and what is behind it. -/
def decodeToken : List Byte → Option (Token Byte × List Byte)
  | [] => none
  | ctrl :: rest =>
    if ctrl.toNat < 32 then
      if rest.length < ctrl.toNat + 1 then none
      else some (.literal (rest.take (ctrl.toNat + 1)), rest.drop (ctrl.toNat + 1))
    else
      match rest with
      | [] => none
      | low :: rest =>
        if ctrl.toNat >>> 5 = 7 then
          match rest with
          | [] => none
          | low' :: rest => some (.copy ((ctrl.toNat % 32) <<< 8 + low'.toNat) (9 + low.toNat), rest)
        else some (.copy ((ctrl.toNat % 32) <<< 8 + low.toNat) (ctrl.toNat >>> 5 + 2), rest)

variable {t : Token Byte} {tokens : List (Token Byte)} {pre bytes rest run out out' : List Byte}
    {room n ref len : ℕ}

/-! ### Codes -/

theorem toNat_ofNat_of_lt {v : ℕ} (hv : v < 256) : (UInt8.ofNat v).toNat = v := by
  simpa using Nat.mod_eq_of_lt hv

theorem encodeToken_ne_nil (t : Token Byte) : encodeToken t ≠ [] := by
  cases t with
  | literal run => exact List.cons_ne_nil _ _
  | copy off len =>
    rw [encodeToken]
    split_ifs <;> exact List.cons_ne_nil _ _

theorem decodeToken_encodeToken (ht : Encodable t) (rest : List Byte) :
    decodeToken (encodeToken t ++ rest) = some (t, rest) := by
  cases t with
  | literal run =>
    obtain ⟨hpos, hle⟩ := ht
    have hctrl : (UInt8.ofNat (run.length - 1)).toNat = run.length - 1 :=
      toNat_ofNat_of_lt (by simp only [maxLit] at hle; omega)
    have hlen : run.length - 1 + 1 = run.length := by omega
    simp only [encodeToken, decodeToken, List.cons_append, hctrl, hlen]
    rw [if_pos (by simp only [maxLit] at hle; omega), if_neg (by simp), List.take_left, List.drop_left]
  | copy off len =>
    obtain ⟨hoff, hge, hle⟩ := ht
    simp only [maxOff, maxRef] at hoff hle
    have hlow : (UInt8.ofNat off).toNat = off % 256 := by simp
    rw [encodeToken]
    split_ifs with hlen
    · have hctrl : (UInt8.ofNat (off >>> 8 + (len - 2) <<< 5)).toNat = off / 256 + (len - 2) * 32 := by
        rw [Nat.shiftRight_eq_div_pow, Nat.shiftLeft_eq, toNat_ofNat_of_lt (by omega)]
      simp only [decodeToken, List.cons_append, List.nil_append, hctrl, hlow]
      simp only [Nat.shiftRight_eq_div_pow, Nat.shiftLeft_eq]
      rw [if_neg (by omega), if_neg (by omega), Option.some_inj, Prod.mk.injEq, Token.copy.injEq]
      exact ⟨⟨by omega, by omega⟩, rfl⟩
    · have hctrl : (UInt8.ofNat (off >>> 8 + 7 <<< 5)).toNat = off / 256 + 7 * 32 := by
        rw [Nat.shiftRight_eq_div_pow, Nat.shiftLeft_eq, toNat_ofNat_of_lt (by omega)]
      have hmore : (UInt8.ofNat (len - 9)).toNat = len - 9 := toNat_ofNat_of_lt (by omega)
      simp only [decodeToken, List.cons_append, List.nil_append, hctrl, hlow, hmore]
      simp only [Nat.shiftRight_eq_div_pow, Nat.shiftLeft_eq]
      rw [if_neg (by omega), if_pos (by omega), Option.some_inj, Prod.mk.injEq, Token.copy.injEq]
      exact ⟨⟨by omega, by omega⟩, rfl⟩

/-- Every byte string that starts with a token starts with the code of that token. -/
theorem decodeToken_eq (h : decodeToken bytes = some (t, rest)) :
    Encodable t ∧ bytes = encodeToken t ++ rest := by
  cases bytes with
  | nil => cases h
  | cons ctrl tail =>
    have hctrl := ctrl.toNat_lt
    unfold decodeToken at h
    dsimp only at h
    split_ifs at h with hlit hshort hlong
    · cases h
      have hlen : (tail.take (ctrl.toNat + 1)).length = ctrl.toNat + 1 := by
        rw [List.length_take]
        omega
      refine ⟨⟨by omega, by simp only [maxLit]; omega⟩, ?_⟩
      rw [encodeToken, hlen, Nat.add_sub_cancel, UInt8.ofNat_toNat, List.cons_append, List.take_append_drop]
    · obtain _ | ⟨more, _ | ⟨low, tail⟩⟩ := tail
      · cases h
      · cases h
      · cases h
        have hmore := more.toNat_lt
        have hlow := low.toNat_lt
        simp only [Nat.shiftRight_eq_div_pow, Nat.shiftLeft_eq] at hlong ⊢
        have hoff : (ctrl.toNat % 32 * 2 ^ 8 + low.toNat) / 2 ^ 8 + 7 * 2 ^ 5 = ctrl.toNat := by omega
        refine ⟨⟨by simp only [maxOff]; omega, by omega, by simp only [maxRef]; omega⟩, ?_⟩
        rw [encodeToken, if_neg (by omega), Nat.shiftRight_eq_div_pow, Nat.shiftLeft_eq, hoff,
          Nat.add_sub_cancel_left]
        simp
    · obtain _ | ⟨low, tail⟩ := tail
      · cases h
      · cases h
        have hlow := low.toNat_lt
        simp only [Nat.shiftRight_eq_div_pow, Nat.shiftLeft_eq] at hlong ⊢
        have hoff : (ctrl.toNat % 32 * 2 ^ 8 + low.toNat) / 2 ^ 8 + (ctrl.toNat / 2 ^ 5 + 2 - 2) * 2
            ^ 5 = ctrl.toNat := by
          omega
        refine ⟨⟨by simp only [maxOff]; omega, by omega, by simp only [maxRef]; omega⟩, ?_⟩
        rw [encodeToken, if_pos (by omega), Nat.shiftRight_eq_div_pow, Nat.shiftLeft_eq, hoff]
        simp

/-! ### Decompressing a token -/

theorem octet_append (pre : List Byte) (b : Byte) (rest : List Byte) :
    octet (pre ++ b :: rest) pre.length = .ok b := by
  rw [octet, List.getElem?_append_right (Nat.le_refl _), Nat.sub_self]
  rfl

theorem lift_octet (pre : List Byte) (b : Byte) (rest : List Byte) (out : List Byte) :
    (Prog.lift (octet (pre ++ b :: rest) pre.length) : UnpackM Byte) out = .ok (b, out) := by
  rw [octet_append]
  rfl

theorem emit_run (h : out.length < room) (b : Byte) : emit room b out = .ok ((), out ++ [b]) := by
  have hget : (get : UnpackM (List Byte)) out = .ok (out, out) := rfl
  rw [emit, Prog.bind_run hget, if_pos h]
  rfl

theorem literals_run : ∀ {run pre out : List Byte}, out.length + run.length ≤ room →
    literals (pre ++ (run ++ rest)) room run.length pre.length out = .ok ((), out ++ run)
  | [], _, out, _ => by
    rw [List.append_nil]
    rfl
  | b :: run, pre, out, h => by
    rw [List.length_cons] at h
    have hroom : (out ++ [b]).length + run.length ≤ room := by
      rw [List.length_append, List.length_singleton]
      omega
    have ih := @literals_run run (pre ++ [b]) (out ++ [b]) hroom
    rw [List.append_assoc, List.append_assoc, List.length_append] at ih
    rw [List.length_cons, literals, List.cons_append, Prog.bind_run (lift_octet pre b (run ++ rest) out),
      Prog.bind_run (emit_run (by omega) b)]
    exact ih

theorem octets_run : ∀ {n ref : ℕ} {out : List Byte}, replay n ref out = some out' → out.length + n ≤ room →
    octets room n ref out = .ok ((), out')
  | 0, _, _, h, _ => by
    cases h
    rfl
  | n + 1, ref, out, h, hroom => by
    obtain ⟨b, hb, hrest⟩ := Option.bind_eq_some_iff.mp h
    have hget : (get : UnpackM (List Byte)) out = .ok (out, out) := rfl
    have hread : (Prog.lift (octet out ref) : UnpackM Byte) out = .ok (b, out) := by
      rw [octet, hb]
      rfl
    rw [octets, Prog.bind_run hget, Prog.bind_run hread, Prog.bind_run (emit_run (by omega) b)]
    exact octets_run hrest (by rw [List.length_append, List.length_singleton]; omega)

/-- `memcpy` and the loop leave the same. -/
theorem copyOctets_run (h : replay (len + 2) ref out = some out') (hroom : out.length + (len + 2) ≤ room) :
    copyOctets room ref len out = .ok ((), out') := by
  have hget : (get : UnpackM (List Byte)) out = .ok (out, out) := rfl
  rw [copyOctets, Prog.bind_run hget]
  split_ifs with hapart
  · rw [memcpy, Prog.bind_run hget, if_neg (by omega), if_neg (by omega)]
    cases (replay_apart hapart.2).symm.trans h
    rfl
  · exact octets_run h hroom

/-- What is behind the first token of a code, and the text with that token expanded, if it
fits the room. -/
def unpackToken (room : ℕ) (out bytes : List Byte) : Option (List Byte × List Byte) :=
  (decodeToken bytes).bind fun (t, rest) => ((apply out t).filter (·.length ≤ room)).map fun out' =>
    (rest, out')

theorem unpackCopy_run (pre : List Byte) (low : Byte) (rest out : List Byte) (room ctrl len : ℕ) :
    unpackCopy (pre ++ low :: rest) room ctrl len pre.length out =
      .ok (match (apply out (.copy ((ctrl % 32) <<< 8 + low.toNat) (len + 2))).filter (·.length ≤ room) with
        | none => (none, out)
        | some out' => (some (pre.length + 1), out')) := by
  have hget : (get : UnpackM (List Byte)) out = .ok (out, out) := rfl
  rw [unpackCopy, Prog.bind_run (lift_octet pre low rest out), Prog.bind_run hget]
  generalize hoff : (ctrl % 32) <<< 8 + low.toNat = off
  have hback : (ctrl % 32) <<< 8 + 1 + low.toNat = off + 1 := by omega
  rw [hback, apply]
  by_cases hlt : off < out.length
  · obtain ⟨out', hr, hlen⟩ := replay_some (len + 2) (show out.length - off - 1 < out.length by omega)
    rw [if_pos hlt, hr, Option.filter_some]
    by_cases hfits : out'.length ≤ room
    · rw [if_pos (decide_eq_true hfits), if_neg (by omega), if_neg (by omega), ← Nat.sub_sub,
        Prog.bind_run (copyOctets_run hr (by omega))]
      rfl
    · have hno : ¬decide (out'.length ≤ room) = true := by simpa using hfits
      rw [if_neg hno, if_pos (by omega)]
      rfl
  · rw [if_neg hlt]
    split_ifs
    · rfl
    · rfl
    · omega

theorem unpacked_eq {x : Option (List Byte)} {m : ℕ} (h : n = m - rest.length) :
    (Except.ok (match x with
      | none => (none, out)
      | some out' => (some n, out')) : Except Fault (Option ℕ × List Byte)) =
    .ok (match x.map fun out' => (rest, out') with
      | none => (none, out)
      | some (rest, out') => (some (m - rest.length), out')) := by
  cases x with
  | none => rfl
  | some out' => rw [h, Option.map_some]

theorem unpackStep_run (pre : List Byte) (hne : bytes ≠ []) (room : ℕ) (out : List Byte) :
    unpackStep (pre ++ bytes) room pre.length out = .ok (match unpackToken room out bytes with
      | none => (none, out)
      | some (rest, out') => (some (pre.length + bytes.length - rest.length), out')) := by
  obtain ⟨ctrl, tail, rfl⟩ := List.exists_cons_of_ne_nil hne
  have hget : (get : UnpackM (List Byte)) out = .ok (out, out) := rfl
  have hnext : pre ++ ctrl :: tail = (pre ++ [ctrl]) ++ tail := by simp
  have hpre : (pre ++ [ctrl]).length = pre.length + 1 := by simp
  have hlength : (pre ++ ctrl :: tail).length = pre.length + 1 + tail.length := by
    rw [hnext, List.length_append, hpre]
  rw [unpackStep, Prog.bind_run (lift_octet pre ctrl tail out)]
  unfold unpackToken decodeToken
  dsimp only
  by_cases hlit : ctrl.toNat < 32
  · rw [if_pos hlit, if_pos hlit, Prog.bind_run hget, hlength]
    by_cases hshort : tail.length < ctrl.toNat + 1
    · rw [if_pos hshort]
      split_ifs
      · rfl
      · rfl
      · omega
    · have hlen : (tail.take (ctrl.toNat + 1)).length = ctrl.toNat + 1 := by
        rw [List.length_take]
        omega
      rw [if_neg hshort, Option.bind_some, apply, Option.filter_some, List.length_append, hlen]
      by_cases hfits : out.length + (ctrl.toNat + 1) ≤ room
      · have hrun := @literals_run (tail.drop (ctrl.toNat + 1)) room (tail.take (ctrl.toNat + 1))
          (pre ++ [ctrl]) out
          (by omega)
        rw [List.take_append_drop, hlen, hpre, ← hnext] at hrun
        rw [if_pos (decide_eq_true hfits), if_neg (by omega), if_neg (by omega), Prog.bind_run hrun]
        refine congrArg Except.ok (Prod.ext (congrArg some ?_) rfl)
        simp only [List.length_cons, List.length_drop]
        omega
      · have hno : ¬decide (out.length + (ctrl.toNat + 1) ≤ room) = true := by simpa using hfits
        rw [if_neg hno, if_pos (by omega)]
        rfl
  · rw [if_neg hlit, if_neg hlit]
    obtain _ | ⟨low, tail⟩ := tail
    · have hend : pre.length + 1 + ([] : List Byte).length ≤ pre.length + 1 := Nat.le_refl _
      rw [copyLength, hlength, if_pos hend]
      rfl
    · have hread : octet (pre ++ ctrl :: low :: tail) (pre.length + 1) = .ok low := by
        rw [hnext, ← hpre]
        exact octet_append ..
      dsimp only
      by_cases hlong : ctrl.toNat >>> 5 = 7
      · rw [if_pos hlong]
        obtain _ | ⟨low', tail⟩ := tail
        · have hrun : (Prog.lift (copyLength (pre ++ [ctrl, low]) ctrl.toNat (pre.length + 1)) :
            UnpackM _) out =
              .ok (none, out) := by
            rw [copyLength, hlength, if_neg (by simp), if_pos hlong, hread]
            change (Except.ok (ite _ _ _) : Except _ _).map _ = _
            rw [if_pos (by simp)]
            rfl
          rw [Prog.bind_run hrun]
          rfl
        · have hcode : pre ++ ctrl :: low :: low' :: tail = (pre ++ [ctrl, low]) ++ low' :: tail := by simp
          have hat : (pre ++ [ctrl, low]).length = pre.length + 1 + 1 := by simp
          have hfar : ¬pre.length + 1 + (low :: low' :: tail).length ≤ pre.length + 1 + 1 := by
            simp only [List.length_cons]
            omega
          have hrun : (Prog.lift (copyLength (pre ++ ctrl :: low :: low' :: tail) ctrl.toNat
            (pre.length + 1)) : UnpackM _) out =
              .ok (some (7 + low.toNat, pre.length + 1 + 1), out) := by
            rw [copyLength, hlength, if_neg (by simp), if_pos hlong, hread]
            change (Except.ok (ite _ _ _) : Except _ _).map _ = _
            rw [if_neg hfar]
            rfl
          have hcopy := unpackCopy_run (pre ++ [ctrl, low]) low' tail out room ctrl.toNat (7 + low.toNat)
          rw [← hcode, hat, show 7 + low.toNat + 2 = 9 + low.toNat by omega] at hcopy
          rw [Prog.bind_run hrun]
          refine hcopy.trans (unpacked_eq ?_)
          simp only [List.length_cons]
          omega
      · rw [if_neg hlong]
        have hrun : (Prog.lift (copyLength (pre ++ ctrl :: low :: tail) ctrl.toNat
          (pre.length + 1)) : UnpackM _) out =
            .ok (some (ctrl.toNat >>> 5, pre.length + 1), out) := by
          rw [copyLength, hlength, if_neg (by simp), if_neg hlong]
          rfl
        have hcopy := unpackCopy_run (pre ++ [ctrl]) low tail out room ctrl.toNat (ctrl.toNat >>> 5)
        rw [← hnext, hpre] at hcopy
        rw [Prog.bind_run hrun]
        refine hcopy.trans (unpacked_eq ?_)
        simp only [List.length_cons]
        omega

/-! ### The loop -/

theorem unpackToken_eq (h : unpackToken room out bytes = some (rest, out')) :
    ∃ t, Encodable t ∧ bytes = encodeToken t ++ rest ∧ apply out t = some out' ∧ out'.length ≤ room := by
  obtain ⟨⟨t, rest'⟩, ht, hmap⟩ := Option.bind_eq_some_iff.mp h
  obtain ⟨_, hfilter, heq⟩ := Option.map_eq_some_iff.mp hmap
  cases heq
  obtain ⟨happly, hroom⟩ := Option.filter_eq_some_iff.mp hfilter
  obtain ⟨henc, hbytes⟩ := decodeToken_eq ht
  exact ⟨t, henc, hbytes, happly, by simpa using hroom⟩

theorem unpackToken_encodeToken (ht : Encodable t) (happly : apply out t = some out')
    (hroom : out'.length ≤ room)
    (rest : List Byte) : unpackToken room out (encodeToken t ++ rest) = some (rest, out') := by
  rw [unpackToken, decodeToken_encodeToken ht, Option.bind_some]
  dsimp only
  rw [happly, Option.filter_some, if_pos (decide_eq_true hroom)]
  rfl

theorem unpackLoop_succ (pre : List Byte) (hne : bytes ≠ []) (n : ℕ) (out : List Byte) :
    unpackLoop (pre ++ bytes) room (n + 1) pre.length out = match unpackToken room out bytes with
      | none => .ok (false, out)
      | some (rest, out') => if rest = [] then .ok (true, out')
        else unpackLoop (pre ++ bytes) room n (pre.length + bytes.length - rest.length) out' := by
  rw [unpackLoop, Prog.bind_run (unpackStep_run pre hne room out)]
  cases h : unpackToken room out bytes with
  | none => rfl
  | some x =>
    obtain ⟨rest, out'⟩ := x
    obtain ⟨t, -, hbytes, -⟩ := unpackToken_eq h
    have hlen := congrArg List.length hbytes
    rw [List.length_append] at hlen
    dsimp only
    by_cases hrest : rest = []
    · rw [if_pos hrest, if_neg (by rw [hrest, List.length_append]; simp)]
      rfl
    · have hpos := List.length_pos_iff.mpr hrest
      rw [if_neg hrest, if_pos (by rw [List.length_append]; omega)]

/-- Whatever it is given, the loop ends in bounds, having written what the tokens at the
start expand to. -/
theorem unpackLoop_total : ∀ {n : ℕ} {pre bytes out : List Byte}, bytes ≠ [] → bytes.length < n →
    out.length ≤ room →
    ∃ ok out' tokens rest, unpackLoop (pre ++ bytes) room n pre.length out = .ok (ok, out') ∧
    out'.length ≤ room ∧
      (∀ t ∈ tokens, Encodable t) ∧ bytes = encode tokens ++ rest ∧ expand out tokens = some out' ∧
      (ok = true ↔ rest = []) ∧ (ok = false → unpackToken room out' rest = none)
  | n + 1, pre, bytes, out, hne, hn, hout => by
    rw [unpackLoop_succ pre hne]
    cases h : unpackToken room out bytes with
    | none => exact ⟨false, out, [], bytes, rfl, hout, fun _ h => (nomatch h), rfl, rfl,
        ⟨fun h => (nomatch h), fun h => absurd h hne⟩, fun _ => h⟩
    | some x =>
      obtain ⟨rest, out₁⟩ := x
      obtain ⟨t, ht, hbytes, happly, hroom⟩ := unpackToken_eq h
      dsimp only
      by_cases hrest : rest = []
      · refine ⟨true, out₁, [t], [], if_pos hrest, hroom, List.forall_mem_singleton.mpr ht, ?_, ?_,
          ⟨fun _ => rfl, fun _ => rfl⟩, fun h => (nomatch h)⟩
        · rw [hbytes, hrest]
          simp [encode]
        · rw [expand_cons, happly]
          rfl
      · have hlen := congrArg List.length hbytes
        have htoken := List.length_pos_iff.mpr (encodeToken_ne_nil t)
        rw [List.length_append] at hlen
        obtain ⟨ok, out', tokens, rest', hrun, hroom', htokens, hrest', hexpand, hok⟩ :=
          @unpackLoop_total n (pre ++ encodeToken t) rest out₁ hrest (by omega) hroom
        rw [List.append_assoc, ← hbytes, List.length_append,
          show pre.length + (encodeToken t).length = pre.length + bytes.length - rest.length by omega] at hrun
        refine ⟨ok, out', t :: tokens, rest', (if_neg hrest).trans hrun, hroom',
          List.forall_mem_cons.mpr ⟨ht, htokens⟩, ?_, ?_, hok⟩
        · rw [hbytes, hrest', encode, encode, List.flatMap_cons, List.append_assoc]
        · rw [expand_cons, happly]
          exact hexpand

/-- The code of a text is decompressed to it. -/
theorem unpackLoop_encode : ∀ {tokens : List (Token Byte)} {n : ℕ} {pre out : List Byte}, tokens ≠ [] →
    (∀ t ∈ tokens, Encodable t) → expand out tokens = some out' → out'.length ≤ room →
      (encode tokens).length < n →
    unpackLoop (pre ++ encode tokens) room n pre.length out = .ok (true, out')
  | t :: tokens, n + 1, pre, out, _, htokens, hexpand, hroom, hn => by
    rw [expand_cons] at hexpand
    obtain ⟨mid, hmid, hrest⟩ := Option.bind_eq_some_iff.mp hexpand
    have hcode : encode (t :: tokens) = encodeToken t ++ encode tokens := List.flatMap_cons ..
    have htoken := List.length_pos_iff.mpr (encodeToken_ne_nil t)
    have hne : encode (t :: tokens) ≠ [] := by
      rw [hcode]
      exact List.append_ne_nil_of_left_ne_nil (encodeToken_ne_nil t) _
    have hfirst := unpackToken_encodeToken (htokens t List.mem_cons_self) hmid
      (Nat.le_trans (expand_length_le hrest) hroom) (encode tokens)
    rw [unpackLoop_succ pre hne, hcode, hfirst]
    rw [hcode, List.length_append] at hn
    dsimp only
    cases tokens with
    | nil =>
      cases hrest
      rfl
    | cons t' tokens =>
      have hmore : encode (t' :: tokens) ≠ [] := by
        rw [encode, List.flatMap_cons]
        exact List.append_ne_nil_of_left_ne_nil (encodeToken_ne_nil t') _
      have ih := @unpackLoop_encode (t' :: tokens) n (pre ++ encodeToken t) mid (List.cons_ne_nil t' tokens)
        (fun x hx => htokens x (List.mem_cons_of_mem _ hx)) hrest hroom (by omega)
      rw [List.append_assoc, List.length_append] at ih
      rw [if_neg hmore, List.length_append, ← Nat.add_assoc, Nat.add_sub_cancel]
      exact ih

/-! ### `lzf_decompress` -/

theorem lzfDecompress_total {data : List Byte} (hdata : data ≠ []) (room : ℕ) : ∃ ok out tokens rest,
    lzfDecompress data room = .ok (ok, out) ∧ out.length ≤ room ∧ (∀ t ∈ tokens, Encodable t) ∧
      data = encode tokens ++ rest ∧ expand [] tokens = some out ∧ (ok = true ↔ rest = []) ∧
      (ok = false → unpackToken room out rest = none) :=
  @unpackLoop_total room _ [] data [] hdata (Nat.lt_succ_self _) (Nat.zero_le _)

theorem lzfDecompress_encode (hne : tokens ≠ []) (htokens : ∀ t ∈ tokens, Encodable t)
    (hexpand : expand [] tokens = some out) (hroom : out.length ≤ room) :
    lzfDecompress (encode tokens) room = .ok (true, out) :=
  @unpackLoop_encode out room tokens _ [] [] hne htokens hexpand hroom (Nat.lt_succ_self _)

/-- What is accepted is well formed, and is all that is. -/
theorem lzfDecompress_ok_iff {data : List Byte} : lzfDecompress data room = .ok (true, out) ↔
    ∃ tokens ≠ [], (∀ t ∈ tokens, Encodable t) ∧ data = encode tokens ∧
    expand [] tokens = some out ∧ out.length ≤ room := by
  constructor
  · intro h
    have hdata : data ≠ [] := fun hnil => by
      rw [hnil] at h
      cases h
    obtain ⟨ok, out', tokens, rest, hrun, hroom, htokens, hcode, hexpand, hok, -⟩ :=
      lzfDecompress_total hdata room
    cases hrun.symm.trans h
    rw [hok.mp rfl, List.append_nil] at hcode
    refine ⟨tokens, fun hnil => hdata ?_, htokens, hcode, hexpand, hroom⟩
    rw [hcode, hnil]
    rfl
  · rintro ⟨tokens, hne, htokens, rfl, hexpand, hroom⟩
    exact lzfDecompress_encode hne htokens hexpand hroom

/-- Whatever it is given, `lzf_decompress` stays in bounds. It expands the tokens at the
start of the input for as long as they are well formed and fit the room, and returns a
length where they are all of it. -/
theorem lzfDecompress_spec {data : List Byte} (hdata : data ≠ []) (room : ℕ) : ∃ ok out tokens rest,
    lzfDecompress data room = .ok (ok, out) ∧ out.length ≤ room ∧ (∀ t ∈ tokens, Encodable t) ∧
      data = encode tokens ++ rest ∧ expand [] tokens = some out ∧ (ok = true ↔ rest = []) ∧
      ∀ t rest' out', Encodable t → rest = encodeToken t ++ rest' → apply out t = some out' →
        room < out'.length := by
  obtain ⟨ok, out, tokens, rest, hrun, hroom, htokens, hcode, hexpand, hok, hstop⟩ :=
    lzfDecompress_total hdata room
  refine ⟨ok, out, tokens, rest, hrun, hroom, htokens, hcode, hexpand, hok,
    fun t rest' out' ht hrest happly => ?_⟩
  refine Nat.not_le.mp fun hle => ?_
  have hfalse : ok = false := by
    refine Bool.eq_false_iff.mpr fun htrue => ?_
    rw [hok.mp htrue] at hrest
    exact List.append_ne_nil_of_left_ne_nil (encodeToken_ne_nil t) _ hrest.symm
  have hnone := hstop hfalse
  rw [hrest, unpackToken_encodeToken ht happly hle] at hnone
  cases hnone

/-- A code that ends in the middle of a literal run. -/
theorem lzfDecompress_spec_short : lzfDecompress [1, 7, 8, 31, 9] 4 = .ok (false, [7, 8]) ∧
    ∃ ok out tokens rest,
    lzfDecompress [1, 7, 8, 31, 9] 4 = .ok (ok, out) ∧ out.length ≤ 4 ∧ (∀ t ∈ tokens, Encodable t) ∧
      [1, 7, 8, 31, 9] = encode tokens ++ rest ∧ expand [] tokens = some out ∧ (ok = true ↔ rest = []) ∧
      ∀ t rest' out', Encodable t → rest = encodeToken t ++ rest' → apply out t = some out' →
        4 < out'.length :=
  ⟨rfl, lzfDecompress_spec (List.cons_ne_nil _ _) 4⟩

end Lzf

end EagleMQ
