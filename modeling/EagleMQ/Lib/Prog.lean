import Mathlib.Data.List.Nodup
import Mathlib.Tactic.Common

/-! Programs over a state that may stop with a fault, and their weakest
preconditions. The postcondition has two halves: what holds of a normal result,
and which faults are allowed. With no allowed fault the rules give total
correctness, with every fault allowed partial correctness, so one proof of a
program can say exactly how it may fail. The last part is the walk of a list
whose nodes are removed while it is being walked. -/

namespace EagleMQ

abbrev Prog (σ ε α : Type) := StateT σ (Except ε) α

namespace Prog

variable {σ ε α β ι : Type}

/-- A computation that only reads, with the state passed through. -/
def lift (x : Except ε α) : Prog σ ε α := fun s => x.map fun a => (a, s)

/-- Weakest precondition: `Q` for results, `E` for faults. -/
def wp (m : Prog σ ε α) (Q : α → σ → Prop) (E : ε → Prop) (s : σ) : Prop :=
  match m s with
  | .ok (a, t) => Q a t
  | .error e => E e

section Rules

variable {Q : α → σ → Prop} {E : ε → Prop} {s : σ}

@[simp] theorem wp_pure (a : α) : wp (pure a) Q E s ↔ Q a s := Iff.rfl

@[simp] theorem wp_bind (m : Prog σ ε β) (f : β → Prog σ ε α) :
    wp (m >>= f) Q E s ↔ wp m (fun b t => wp (f b) Q E t) E s := by
  simp only [wp, bind, StateT.bind, Except.bind]
  cases m s <;> rfl

@[simp] theorem wp_map (m : Prog σ ε β) (f : β → α) :
    wp (f <$> m) Q E s ↔ wp m (fun b t => Q (f b) t) E s := by
  rw [← bind_pure_comp, wp_bind]
  rfl

@[simp] theorem wp_get {Q : σ → σ → Prop} : wp get Q E s ↔ Q s s := Iff.rfl

@[simp] theorem wp_set {Q : PUnit → σ → Prop} (t : σ) : wp (set t) Q E s ↔ Q ⟨⟩ t := Iff.rfl

@[simp] theorem wp_modify {Q : PUnit → σ → Prop} (f : σ → σ) :
    wp (modify f) Q E s ↔ Q ⟨⟩ (f s) := Iff.rfl

@[simp] theorem wp_throw (e : ε) : wp (throw e : Prog σ ε α) Q E s ↔ E e := Iff.rfl

@[simp] theorem wp_lift_ok (a : α) : wp (lift (.ok a)) Q E s ↔ Q a s := Iff.rfl

@[simp] theorem wp_lift_error (e : ε) : wp (lift (.error e) : Prog σ ε α) Q E s ↔ E e := Iff.rfl

theorem wp_ite {c : Prop} [Decidable c] {m n : Prog σ ε α}
    (ht : c → wp m Q E s) (hf : ¬c → wp n Q E s) : wp (if c then m else n) Q E s := by
  split_ifs with h
  · exact ht h
  · exact hf h

theorem wp_mono {m : Prog σ ε α} {Q' : α → σ → Prop} {E' : ε → Prop} (h : wp m Q E s)
    (hQ : ∀ a t, Q a t → Q' a t) (hE : ∀ e, E e → E' e) : wp m Q' E' s := by
  unfold wp at h ⊢
  split at h
  · exact hQ _ _ h
  · exact hE _ h

theorem wp_and {m : Prog σ ε α} {Q' : α → σ → Prop} {F : ε → Prop} (h : wp m Q E s) (h' : wp m Q' F s) :
    wp m (fun a t => Q a t ∧ Q' a t) E s := by
  unfold wp at h h' ⊢
  split at h
  · exact ⟨h, by simp_all⟩
  · exact h

theorem wp_result (m : Prog σ ε α) (s : σ) : wp m (fun a t => m s = .ok (a, t)) (fun _ => True) s := by
  unfold wp
  split
  · assumption
  · trivial

/-- What the last part of a program ensures, whatever comes before it. -/
theorem wp_last {m : Prog σ ε β} {f : β → Prog σ ε α} (hE : ∀ e, E e) (h : ∀ b t, wp (f b) Q E t) :
    wp (m >>= f) Q E s := by
  rw [wp_bind]
  unfold wp
  split
  · exact h _ _
  · exact hE _

theorem wp_of_ok {m : Prog σ ε α} {a : α} {t : σ} (h : m s = .ok (a, t)) (hQ : Q a t) :
    wp m Q E s := by
  simpa only [wp, h] using hQ

/-- A program that runs as another one does from another state. -/
theorem wp_of_run {m n : Prog σ ε α} {t : σ} (h : m s = n t) (hn : wp n Q E t) : wp m Q E s := by
  unfold wp at hn ⊢
  rwa [h]

theorem ok_of_wp {m : Prog σ ε α} {a : α} {t : σ} (h : wp m Q E s) (hm : m s = .ok (a, t)) :
    Q a t := by
  simpa only [wp, hm] using h

theorem fault_of_wp {m : Prog σ ε α} {e : ε} (h : wp m Q E s) (hm : m s = .error e) : E e := by
  simpa only [wp, hm] using h

theorem error_of_wp {m : Prog σ ε α} {e : ε} (h : wp m (fun _ _ => False) (fun e' => e' = e) s) :
    m s = .error e := by
  unfold wp at h
  split at h
  · exact h.elim
  · rwa [← h]

/-- With no fault allowed the program returns. -/
theorem returns_of_wp {m : Prog σ ε α} (h : wp m Q (fun _ => False) s) :
    ∃ a t, m s = .ok (a, t) ∧ Q a t := by
  unfold wp at h
  split at h
  · exact ⟨_, _, by assumption, h⟩
  · exact h.elim

theorem bind_run {m : Prog σ ε β} {k : β → Prog σ ε α} {b : β} {t : σ} (h : m s = .ok (b, t)) :
    (m >>= k) s = k b t := by
  show (m s).bind (fun x => k x.1 x.2) = _
  rw [h]
  rfl

theorem bind_congr {m : Prog σ ε β} {k k' : β → Prog σ ε α} (h : ∀ b t, m s = .ok (b, t) → k b t = k' b t) :
    (m >>= k) s = (m >>= k') s := by
  show (m s).bind (fun x => k x.1 x.2) = (m s).bind fun x => k' x.1 x.2
  cases hs : m s with
  | error e => rfl
  | ok x => exact h x.1 x.2 hs

end Rules

/-- What the two parts of a program do to the state, one after the other. -/
theorem wp_bind_trans {R : σ → σ → Prop} [IsTrans σ R] {m : Prog σ ε β} {f : β → Prog σ ε α}
    {E : ε → Prop} {s : σ} (hm : wp m (fun _ t => R s t) E s)
    (hf : ∀ b t, R s t → wp (f b) (fun _ u => R t u) E t) :
    wp (m >>= f) (fun _ u => R s u) E s := by
  rw [wp_bind]
  exact wp_mono hm (fun b t ht => wp_mono (hf b t ht) (fun _ u hu => IsTrans.trans _ _ _ ht hu) fun _ h => h)
    fun _ h => h

/-- A loop over a list that stays put, by an invariant on what is left. -/
theorem wp_forM {E : ε → Prop} (I : List ι → σ → Prop) (body : ι → Prog σ ε PUnit)
    (hbody : ∀ x rest s, I (x :: rest) s → wp (body x) (fun _ t => I rest t) E s) :
    ∀ (l : List ι) (s : σ), I l s → wp (l.forM body) (fun _ t => I [] t) E s
  | [], _, h => h
  | x :: rest, s, h => by
    rw [show (x :: rest).forM body = (body x >>= fun _ => rest.forM body) from rfl, wp_bind]
    exact wp_mono (hbody x rest s h) (fun _ t ht => wp_forM I body hbody rest t ht) (fun _ h => h)

section Loops

variable {R : σ → σ → Prop} [IsPreorder σ R] {E : ε → Prop}

/-- Each turn of a loop is a step of the relation. -/
theorem wp_forM_trans {body : ι → Prog σ ε PUnit} {l : List ι} {s : σ}
    (hbody : ∀ x ∈ l, ∀ t, R s t → wp (body x) (fun _ u => R t u) E t) :
    wp (l.forM body) (fun _ t => R s t) E s := by
  refine wp_mono (wp_forM (fun rest t => R s t ∧ ∀ x ∈ rest, x ∈ l) body ?_ l s
    ⟨Std.Refl.refl s, fun x hx => hx⟩) (fun _ _ h => h.1) fun _ h => h
  rintro x rest t ⟨ht, hrest⟩
  refine wp_mono (hbody x (hrest x (by simp)) t ht) (fun _ u hu => ?_) fun _ h => h
  exact ⟨IsTrans.trans _ _ _ ht hu, fun y hy => hrest y (by simp [hy])⟩

theorem wp_foldlM_trans {body : α → ι → Prog σ ε α} :
    ∀ {l : List ι} {a : α} {s : σ},
      (∀ x ∈ l, ∀ a t, R s t → wp (body a x) (fun _ u => R t u) E t) →
      wp (l.foldlM body a) (fun _ t => R s t) E s
  | [], _, s, _ => Std.Refl.refl s
  | x :: l, a, s, hbody => by
    rw [List.foldlM_cons]
    refine wp_bind_trans (hbody x (by simp) a s (Std.Refl.refl s)) fun b t ht => ?_
    exact wp_foldlM_trans fun y hy b u hu => hbody y (by simp [hy]) b u (IsTrans.trans _ _ _ ht hu)

/-- A loop whose turns only read returns its results or stops with their fault. -/
theorem mapM_reads {s : σ} {f : ι → Prog σ ε α} :
    ∀ {l : List ι}, (∀ x ∈ l, (∃ a, f x s = .ok (a, s)) ∨ ∃ e, f x s = .error e ∧ E e) →
      (∃ as, l.mapM f s = .ok (as, s)) ∨ ∃ e, l.mapM f s = .error e ∧ E e
  | [], _ => .inl ⟨[], rfl⟩
  | x :: l, h => by
    rw [List.mapM_cons]
    rcases h x (by simp) with ⟨a, ha⟩ | ⟨e, he, hE⟩
    · rcases mapM_reads (l := l) fun y hy => h y (by simp [hy]) with ⟨as, has⟩ | ⟨e, he, hE⟩
      · refine .inl ⟨a :: as, ?_⟩
        simp only [bind, StateT.bind, Except.bind, ha, has]
        rfl
      · refine .inr ⟨e, ?_, hE⟩
        simp only [bind, StateT.bind, Except.bind, ha, he]
    · refine .inr ⟨e, ?_, hE⟩
      simp only [bind, StateT.bind, Except.bind, he]

end Loops

/-! ### Errors and relations between the states -/

/-- The errors of a computation. -/
def Errs (E : ε → Prop) (x : Except ε α) : Prop := ∀ e, x = .error e → E e

section Errs

variable {E : ε → Prop}

theorem errs_ok (a : α) : Errs E (.ok a) := fun _ h => by cases h

theorem errs_error {e : ε} (h : E e) : Errs E (.error e : Except ε α) := fun _ h' => by
  cases h'
  exact h

theorem errs_bind {x : Except ε β} {f : β → Except ε α} (hx : Errs E x) (hf : ∀ b, Errs E (f b)) :
    Errs E (x >>= f) := by
  cases x with
  | error e => exact errs_error (hx e rfl)
  | ok b => exact hf b

theorem errs_ite {c : Prop} [Decidable c] {x y : Except ε α} (hx : Errs E x) (hy : Errs E y) :
    Errs E (if c then x else y) := by
  split_ifs
  · exact hx
  · exact hy

theorem toOption_eq_some {x : Except ε α} {a : α} : x.toOption = some a ↔ x = .ok a := by
  cases x with
  | error e => simp [Except.toOption]
  | ok b => simp [Except.toOption]

end Errs

/-- From every state the program leads to a related one, and stops only with allowed faults. -/
def Keeps (R : σ → σ → Prop) (E : ε → Prop) (m : Prog σ ε α) : Prop :=
  ∀ s, wp m (fun _ t => R s t) E s

section Keeps

variable {R : σ → σ → Prop} {E : ε → Prop} {m : Prog σ ε α}

instance : IsPreorder σ fun _ _ => True where
  refl _ := trivial
  trans _ _ _ _ _ := trivial

theorem keeps_throw {e : ε} (h : E e) : Keeps R E (throw e : Prog σ ε α) := fun _ => h

theorem keeps_ite {c : Prop} [Decidable c] {m n : Prog σ ε α} (hm : c → Keeps R E m)
    (hn : ¬c → Keeps R E n) : Keeps R E (if c then m else n) := by
  split_ifs with h
  · exact hm h
  · exact hn h

theorem keeps_modify (f : σ → σ) (h : ∀ s, R s (f s)) : Keeps R E (modify f : Prog σ ε PUnit) := h

variable [IsPreorder σ R]

theorem keeps_pure (a : α) : Keeps R E (pure a : Prog σ ε α) := fun s => Std.Refl.refl s

theorem keeps_get : Keeps R E (get : Prog σ ε σ) := fun s => Std.Refl.refl s

theorem keeps_lift {x : Except ε α} (h : Errs E x) : Keeps R E (lift x : Prog σ ε α) := fun s => by
  cases x with
  | error e => exact h e rfl
  | ok a => exact Std.Refl.refl s

theorem keeps_bind {m : Prog σ ε β} {f : β → Prog σ ε α} (hm : Keeps R E m)
    (hf : ∀ b, Keeps R E (f b)) : Keeps R E (m >>= f) := fun s =>
  wp_bind_trans (hm s) fun b t _ => hf b t

theorem keeps_forM {body : ι → Prog σ ε PUnit} (hbody : ∀ x, Keeps R E (body x)) :
    ∀ l : List ι, Keeps R E (l.forM body)
  | [] => keeps_pure _
  | x :: l => keeps_bind (hbody x) fun _ => keeps_forM hbody l

end Keeps

section Walk

variable [DecidableEq ι]

/-- The element after `x`, what a node's `next` link leads to. -/
def successor (x : ι) : List ι → Option ι
  | [] => none
  | y :: l => if y = x then l.head? else successor x l

/-- Walk the list that `read` finds in the state, from a node on. The link to
the next node is followed before the body runs, so the body may unlink the node
it was given; a node that is no longer there when its turn comes is the fault
`gone`. -/
def walk (read : Prog σ ε (List ι)) (gone : ε) (body : ι → Prog σ ε PUnit) :
    ℕ → Option ι → Prog σ ε PUnit
  | _, none => pure ⟨⟩
  | 0, some _ => throw gone
  | n + 1, some x => do
    let l ← read
    if x ∈ l then
      let next := successor x l
      body x
      walk read gone body n next
    else throw gone

/-- Rewind to the first node and walk. A walk takes no more turns than the list
had nodes at the start. -/
def foreach (read : Prog σ ε (List ι)) (gone : ε) (body : ι → Prog σ ε PUnit) :
    Prog σ ε PUnit := do
  let l ← read
  walk read gone body l.length l.head?

theorem successor_append (x : ι) (pre rest : List ι) (h : x ∉ pre) :
    successor x (pre ++ x :: rest) = rest.head? := by
  induction pre with
  | nil => simp [successor]
  | cons y pre ih =>
    simp only [List.mem_cons, not_or] at h
    simp [successor, Ne.symm h.1, ih h.2]

variable {E : ε → Prop} {read : Prog σ ε (List ι)} {gone : ε} {body : ι → Prog σ ε PUnit}

/-- The walk visits the nodes in order as long as the body leaves the ones to
come in place. Nodes already visited may stay or go. -/
theorem wp_walk (I : List ι → σ → Prop)
    (hread : ∀ x rest s, I (x :: rest) s →
      ∃ pre, read s = .ok (pre ++ x :: rest, s) ∧ (pre ++ x :: rest).Nodup)
    (hbody : ∀ x rest s, I (x :: rest) s → wp (body x) (fun _ t => I rest t) E s) :
    ∀ (rest : List ι) (n : ℕ) (s : σ), rest.length ≤ n → I rest s →
      wp (walk read gone body n rest.head?) (fun _ t => I [] t) E s
  | [], 0, _, _, h => h
  | [], _ + 1, _, _, h => h
  | x :: rest, 0, _, hn, _ => by simp at hn
  | x :: rest, n + 1, s, hn, h => by
    obtain ⟨pre, hr, hd⟩ := hread x rest s h
    have hx : x ∉ pre := fun hp => (List.nodup_append.mp hd).2.2 x hp x (by simp) rfl
    simp only [walk, List.head?_cons, wp_bind]
    refine wp_of_ok hr ?_
    rw [if_pos (by simp), wp_bind, successor_append x pre rest hx]
    exact wp_mono (hbody x rest s h)
      (fun _ t ht => wp_walk I hread hbody rest n t (by simpa using hn) ht) (fun _ h => h)

theorem wp_foreach (I : List ι → σ → Prop) {l : List ι} {s : σ} (hl : read s = .ok (l, s))
    (hread : ∀ x rest s, I (x :: rest) s →
      ∃ pre, read s = .ok (pre ++ x :: rest, s) ∧ (pre ++ x :: rest).Nodup)
    (hbody : ∀ x rest s, I (x :: rest) s → wp (body x) (fun _ t => I rest t) E s)
    (h : I l s) : wp (foreach read gone body) (fun _ t => I [] t) E s := by
  rw [foreach, wp_bind]
  exact wp_of_ok hl (wp_walk I hread hbody l l.length s (Nat.le_refl _) h)

theorem keeps_foreach {R : σ → σ → Prop} [IsPreorder σ R] (hread : Keeps R E read) (hgone : E gone)
    (hbody : ∀ x, Keeps R E (body x)) : Keeps R E (foreach read gone body) := by
  have hwalk : ∀ n x, Keeps R E (walk read gone body n x) := by
    intro n
    induction n with
    | zero =>
      intro x
      cases x with
      | none => exact keeps_pure _
      | some x => exact keeps_throw hgone
    | succ n ih =>
      intro x
      cases x with
      | none => exact keeps_pure _
      | some x =>
        exact keeps_bind hread fun l => keeps_ite
          (fun _ => keeps_bind (hbody x) fun _ => ih _) fun _ => keeps_throw hgone
  exact keeps_bind hread fun l => hwalk _ _

end Walk

section Blind

/-- The operation does not notice that `f` has changed the state, as long as `P`
holds, and `P` goes on to hold. -/
def Blind (f : σ → σ) (P : σ → Prop) (m : Prog σ ε α) : Prop :=
  ∀ s, P s → m (f s) = (m s).map (fun x => (x.1, f x.2)) ∧ ∀ x, m s = .ok x → P x.2

variable {f : σ → σ} {P : σ → Prop}

theorem wp_blind {m : Prog σ ε α} {Q : α → σ → Prop} {E : ε → Prop} {s : σ} (hm : Blind f P m) (hP : P s)
    (h : wp m Q E (f s)) : wp m (fun a t => Q a (f t) ∧ P t) E s := by
  obtain ⟨hrun, hkeep⟩ := hm s hP
  unfold wp at h ⊢
  rw [hrun] at h
  cases hs : m s with
  | error e => simpa [hs, Except.map] using h
  | ok x => exact ⟨by simpa [hs, Except.map] using h, hkeep x hs⟩

/-- Only the states with the property count. -/
theorem blind_congr {m n : Prog σ ε α} (hn : Blind f P n) (hf : ∀ s, P s → P (f s))
    (h : ∀ s, P s → m s = n s) : Blind f P m := fun s hs => by
  rw [h s hs, h _ (hf s hs)]
  exact hn s hs

theorem blind_pure (a : α) : Blind f P (pure a : Prog σ ε α) := fun s hs => by
  refine ⟨rfl, fun x hx => ?_⟩
  cases hx
  exact hs

theorem blind_throw (e : ε) : Blind f P (throw e : Prog σ ε α) := fun s _ =>
  ⟨rfl, fun x hx => by cases hx⟩

theorem blind_reads {m : Prog σ ε α} {g : σ → Except ε α} (hm : ∀ s, m s = (g s).map fun a => (a, s))
    (hg : ∀ s, g (f s) = g s) : Blind f P m := fun s hs => by
  rw [hm, hm, hg]
  cases g s with
  | error e => exact ⟨rfl, fun x hx => by cases hx⟩
  | ok a =>
    refine ⟨rfl, fun x hx => ?_⟩
    cases hx
    exact hs

theorem blind_bind {m : Prog σ ε β} {k : β → Prog σ ε α} (hm : Blind f P m) (hk : ∀ b, Blind f P (k b)) :
    Blind f P (m >>= k) := fun s hs => by
  obtain ⟨hrun, hkeep⟩ := hm s hs
  have hbind : ∀ t, (m >>= k) t = (m t).bind fun x => k x.1 x.2 := fun _ => rfl
  rw [hbind, hbind, hrun]
  cases h : m s with
  | error e => exact ⟨rfl, fun x hx => by cases hx⟩
  | ok x => exact hk x.1 x.2 (hkeep x h)

theorem blind_ite {c : Prop} [Decidable c] {m n : Prog σ ε α} (hm : Blind f P m) (hn : Blind f P n) :
    Blind f P (if c then m else n) := by
  split_ifs
  · exact hm
  · exact hn

theorem blind_modify {g : σ → σ} (hg : ∀ s, g (f s) = f (g s)) (hP : ∀ s, P s → P (g s)) :
    Blind f P (modify g : Prog σ ε PUnit) := fun s hs => by
  refine ⟨congrArg (fun t => Except.ok (PUnit.unit, t)) (hg s), fun x hx => ?_⟩
  cases hx
  exact hP s hs

theorem blind_forM {body : ι → Prog σ ε PUnit} (hbody : ∀ x, Blind f P (body x)) :
    ∀ l : List ι, Blind f P (l.forM body)
  | [] => blind_pure _
  | x :: l => blind_bind (hbody x) fun _ => blind_forM hbody l

theorem blind_foreach [DecidableEq ι] {read : Prog σ ε (List ι)} {gone : ε} {body : ι → Prog σ ε PUnit}
    (hread : Blind f P read) (hbody : ∀ x, Blind f P (body x)) : Blind f P (foreach read gone body) := by
  have hwalk : ∀ n x, Blind f P (walk read gone body n x) := by
    intro n
    induction n with
    | zero =>
      intro x
      cases x with
      | none => exact blind_pure _
      | some x => exact blind_throw _
    | succ n ih =>
      intro x
      cases x with
      | none => exact blind_pure _
      | some x =>
        exact blind_bind hread fun _ => blind_ite (blind_bind (hbody x) fun _ => ih _) (blind_throw _)
  exact blind_bind hread fun _ => hwalk _ _

end Blind

end Prog

end EagleMQ
