import Mathlib.Control.Monad.Basic
import Mathlib.Data.List.Basic
import Mathlib.Tactic.Common

/-! Readers of a list of symbols, that may find it malformed or stop with a fault.
A reader that takes a given list from the front of any input, with one result for
all inputs, composes with others of this kind along the list. -/

namespace EagleMQ

/-- From an input that starts with `l` the reader takes `l` and returns `v`; with
no value it finds the input malformed. -/
def Takes {ι ε α : Type} (p : StateT (List ι) (OptionT (Except ε)) α) (l : List ι) (v : Option α) : Prop :=
  ∀ rest, (StateT.run p (l ++ rest)).run = .ok (v.map fun a => (a, rest))

section Takes

variable {ι ε α β : Type} {p : StateT (List ι) (OptionT (Except ε)) α} {l l' : List ι} {v : Option α}

theorem takes_pure (a : α) : Takes (pure a : StateT (List ι) (OptionT (Except ε)) α) [] (some a) :=
  fun _ => rfl

theorem takes_failure (l : List ι) :
    Takes (failure : StateT (List ι) (OptionT (Except ε)) α) l none := fun _ => rfl

theorem takes_lift {x : OptionT (Except ε) α} (h : x.run = .ok v) :
    Takes (ι := ι) (StateT.lift x) [] v := fun rest => by
  have hrun : (StateT.run (StateT.lift x : StateT (List ι) (OptionT (Except ε)) α) ([] ++ rest)).run =
      x.run.bind fun a => .ok (a.map fun a => (a, rest)) := by
    show (x >>= fun a => pure (a, rest)).run = _
    rw [OptionT.run_bind]
    cases x.run with
    | error e => rfl
    | ok a => cases a <;> rfl
  rw [hrun, h]
  rfl

theorem takes_bind {k : α → StateT (List ι) (OptionT (Except ε)) β} {w : α → Option β} (hp : Takes p l v)
    (hk : ∀ a, v = some a → Takes (k a) l' (w a)) : Takes (p >>= k) (l ++ l') (v.bind w) := fun rest => by
  have hfirst := hp (l' ++ rest)
  rw [List.append_assoc, StateT.run_bind, OptionT.run_bind, hfirst]
  cases v with
  | none => rfl
  | some a => exact hk a rfl rest

/-- The last reader takes what the first has left of the list, which is nothing. -/
theorem takes_bind_nil {k : α → StateT (List ι) (OptionT (Except ε)) β} {w : α → Option β} (hp : Takes p l v)
    (hk : ∀ a, v = some a → Takes (k a) [] (w a)) : Takes (p >>= k) l (v.bind w) := by
  simpa using takes_bind hp hk

/-- The first reader finds what it looks for. -/
theorem takes_bind_some {k : α → StateT (List ι) (OptionT (Except ε)) β} {a : α} {w : Option β}
    (hp : Takes p l (some a))
    (hk : Takes (k a) l' w) : Takes (p >>= k) (l ++ l') w :=
  takes_bind (w := fun _ => w) hp fun _ hb => Option.some.inj hb ▸ hk

theorem takes_last {k : α → StateT (List ι) (OptionT (Except ε)) β} {a : α} {w : Option β}
    (hp : Takes p l (some a))
    (hk : Takes (k a) [] w) : Takes (p >>= k) l w := by
  simpa using takes_bind_some hp hk

theorem takes_lift_some {x : OptionT (Except ε) α} {k : α → StateT (List ι) (OptionT (Except ε)) β}
    {a : α} {w : Option β}
    (hx : x.run = .ok (some a)) (hk : Takes (k a) l w) : Takes (StateT.lift x >>= k) l w :=
  takes_bind_some (l := []) (takes_lift hx) hk

theorem Takes.congr {w : Option α} (h : Takes p l v) (hv : v = w) : Takes p l w := hv ▸ h

end Takes

end EagleMQ
