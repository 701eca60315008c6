import EagleMQ.Lib.Glob
import EagleMQ.Utils
import Mathlib.Data.List.TakeWhile

/-! The patterns of `pattern_match` and their language, as the matcher reads them:
a bracket expression ends at the first closing bracket that is no part of a range
or an escape, and `x-y` is a range whatever `y` is. -/

namespace EagleMQ.Glob

/-- What a bracket expression lists. -/
inductive Item where
  | member (c : Byte)
  | range (a b : Byte)
  deriving DecidableEq

/-- The ends of a range may come in either order. -/
def Item.contains (c : Byte) : Item → Bool
  | member x => x == c
  | range a b => min (charInt a) (charInt b) ≤ charInt c && charInt c ≤ max (charInt a) (charInt b)

inductive Element where
  | star
  | any
  | char (c : Byte)
  | escaped (c : Byte)
  | set (negated : Bool) (items : List Item)
  /-- A bracket expression that the end of the pattern ends. -/
  | unclosed (negated : Bool) (items : List Item)
  /-- A backslash at the end of the pattern. -/
  | backslash
  /-- A bracket expression that ends with a backslash at the end of the pattern. -/
  | broken
  deriving DecidableEq

mutual

def parse : List Byte → List Element
  | [] => []
  | x :: l =>
    if x = 42 then .star :: parse l
    else if x = 63 then .any :: parse l
    else if x = 91 then
      match l with
      | [] => parseSet false [] []
      | y :: l => if y = 94 then parseSet true [] l else parseSet false [] (y :: l)
    else if x = 92 then
      match l with
      | [] => [.backslash]
      | y :: l => .escaped y :: parse l
    else .char x :: parse l

/-- The rest of a bracket expression, whose first items have been read. -/
def parseSet (negated : Bool) (items : List Item) : List Byte → List Element
  | [] => [.unclosed negated items]
  | x :: l =>
    if x = 92 then
      match l with
      | [] => [.broken]
      | y :: l => parseSet negated (items ++ [.member y]) l
    else if x = 93 then .set negated items :: parse l
    else
      match l with
      | y :: z :: l =>
        if y = 45 then parseSet negated (items ++ [.range x z]) l
        else parseSet negated (items ++ [.member x]) (y :: z :: l)
      | l => parseSet negated (items ++ [.member x]) l

end

example : parse [97, 42, 63] = [.char 97, .star, .any] := by decide
example : parse [91, 94, 97, 45, 99, 92, 93, 93, 92, 42] =
    [.set true [.range 97 99, .member 93], .escaped 42] := by decide

/-- An element takes the character. -/
def Element.accepts : Element → Byte → Bool
  | star, _ | any, _ => true
  | char x, c | escaped x, c => c == x
  | set negated items, c | unclosed negated items, c => items.any (Item.contains c) != negated
  | backslash, c => c == 92
  | broken, _ => false

def Element.piece : Element → Piece Byte
  | star => .star
  | e => .one e.accepts

/-- The language of a pattern. -/
def Lang (pattern topic : List Byte) : Prop := Piece.Matches ((parse pattern).map Element.piece) topic

instance (pattern topic : List Byte) : Decidable (Lang pattern topic) :=
  inferInstanceAs (Decidable (Piece.Matches _ _))

def Element.complete : Element → Bool
  | unclosed _ _ | backslash | broken => false
  | _ => true

/-- Every bracket is closed, and the last character is no backslash that escapes nothing. -/
def WellFormed (pattern : List Byte) : Prop := ∀ e ∈ parse pattern, e.complete = true

instance (pattern : List Byte) : Decidable (WellFormed pattern) :=
  inferInstanceAs (Decidable (∀ e ∈ parse pattern, e.complete = true))

/-- No character with a meaning of its own. -/
def Plain (c : Byte) : Prop := c ≠ 42 ∧ c ≠ 63 ∧ c ≠ 91 ∧ c ≠ 92

/-! ### Parsing -/

section Parse

variable {x : Byte} {l w : List Byte} {negated : Bool} {items : List Item}

@[simp] theorem parse_nil : parse [] = [] := rfl

@[simp] theorem parse_star : parse (42 :: l) = .star :: parse l := by
  rw [parse.eq_def]
  simp

@[simp] theorem parse_any : parse (63 :: l) = .any :: parse l := by
  rw [parse.eq_def]
  simp

@[simp] theorem parse_escaped : parse (92 :: x :: l) = .escaped x :: parse l := by
  rw [parse.eq_def]
  simp

@[simp] theorem parse_backslash : parse [92] = [.backslash] := rfl

theorem parse_open : parse (91 :: l) =
    if l.head? = some 94 then parseSet true [] l.tail else parseSet false [] l := by
  cases l with
  | nil => rfl
  | cons y l =>
    rw [parse.eq_def]
    simp

theorem parse_plain (hx : Plain x) : parse (x :: l) = .char x :: parse l := by
  rw [parse.eq_def]
  simp [hx.1, hx.2.1, hx.2.2.1, hx.2.2.2]

@[simp] theorem parseSet_nil : parseSet negated items [] = [.unclosed negated items] := rfl

@[simp] theorem parseSet_escaped :
    parseSet negated items (92 :: x :: l) = parseSet negated (items ++ [.member x]) l := by
  rw [parseSet.eq_def]
  simp

@[simp] theorem parseSet_broken : parseSet negated items [92] = [.broken] := rfl

@[simp] theorem parseSet_close : parseSet negated items (93 :: l) = .set negated items :: parse l := by
  rw [parseSet.eq_def]
  simp

theorem parseSet_range (hx : x ≠ 92 ∧ x ≠ 93) (z : Byte) :
    parseSet negated items (x :: 45 :: z :: l) = parseSet negated (items ++ [.range x z]) l := by
  rw [parseSet.eq_def]
  simp [hx.1, hx.2]

theorem parseSet_member (hx : x ≠ 92 ∧ x ≠ 93) (hl : ¬(l.head? = some 45 ∧ 2 ≤ l.length)) :
    parseSet negated items (x :: l) = parseSet negated (items ++ [.member x]) l := by
  rw [parseSet.eq_def]
  match l with
  | [] => simp [hx.1, hx.2]
  | [y] => simp [hx.1, hx.2]
  | y :: z :: l =>
    have hy : y ≠ 45 := by simpa using hl
    simp [hx.1, hx.2, hy]

/-- How a bracket expression goes on. -/
inductive Inside : List Byte → Prop
  | stop : Inside []
  | broken : Inside [92]
  | close (l : List Byte) : Inside (93 :: l)
  | escaped (x : Byte) (l : List Byte) (h : Inside l) : Inside (92 :: x :: l)
  | range (x z : Byte) (l : List Byte) (hx : x ≠ 92 ∧ x ≠ 93) (h : Inside l) : Inside (x :: 45 :: z :: l)
  | member (x : Byte) (l : List Byte) (hx : x ≠ 92 ∧ x ≠ 93) (hl : ¬(l.head? = some 45 ∧ 2 ≤ l.length))
      (h : Inside l) : Inside (x :: l)

theorem inside (l : List Byte) : Inside l := by
  induction hn : l.length using Nat.strongRecOn generalizing l with
  | ind n ih =>
  subst hn
  match l with
  | [] => exact .stop
  | x :: l =>
    by_cases h92 : x = 92
    · subst h92
      match l with
      | [] => exact .broken
      | y :: l => exact .escaped y l (ih l.length (by simp only [List.length_cons]; omega) l rfl)
    by_cases h93 : x = 93
    · exact h93 ▸ .close l
    by_cases hl : l.head? = some 45 ∧ 2 ≤ l.length
    · match l with
      | [] => simp at hl
      | [y] => simp at hl
      | y :: z :: l =>
        obtain rfl : y = 45 := by simpa using hl.1
        exact .range x z l ⟨h92, h93⟩ (ih l.length (by simp only [List.length_cons]; omega) l rfl)
    · exact .member x l ⟨h92, h93⟩ hl (ih _ (by simp) l rfl)

/-- A set begins with neither a star nor a character. -/
theorem parseSet_head (h : Inside l) (negated : Bool) (items : List Item) :
    ∃ e es, parseSet negated items l = e :: es ∧ e ≠ .star ∧ ∀ c, e ≠ .char c := by
  induction h generalizing items with
  | stop => exact ⟨_, _, parseSet_nil, by simp, by simp⟩
  | broken => exact ⟨_, _, parseSet_broken, by simp, by simp⟩
  | close l => exact ⟨_, _, parseSet_close, by simp, by simp⟩
  | escaped x l _ ih => exact parseSet_escaped ▸ ih _
  | range x z l hx _ ih => exact parseSet_range hx z ▸ ih _
  | member x l hx hl _ ih => exact parseSet_member hx hl ▸ ih _

/-- How a pattern goes on. -/
inductive Outside : List Byte → Prop
  | stop : Outside []
  | star (l : List Byte) (h : Outside l) : Outside (42 :: l)
  | any (l : List Byte) (h : Outside l) : Outside (63 :: l)
  | set (l : List Byte) : Outside (91 :: l)
  | escaped (x : Byte) (l : List Byte) (h : Outside l) : Outside (92 :: x :: l)
  | backslash : Outside [92]
  | plain (x : Byte) (l : List Byte) (hx : Plain x) (h : Outside l) : Outside (x :: l)

theorem outside (l : List Byte) : Outside l := by
  induction hn : l.length using Nat.strongRecOn generalizing l with
  | ind n ih =>
  subst hn
  match l with
  | [] => exact .stop
  | x :: l =>
    have hrest : Outside l := ih l.length (by simp) l rfl
    by_cases h42 : x = 42
    · exact h42 ▸ .star l hrest
    by_cases h63 : x = 63
    · exact h63 ▸ .any l hrest
    by_cases h91 : x = 91
    · exact h91 ▸ .set l
    by_cases h92 : x = 92
    · subst h92
      match l with
      | [] => exact .backslash
      | y :: l => exact .escaped y l (ih l.length (by simp only [List.length_cons]; omega) l rfl)
    exact .plain x l ⟨h42, h63, h91, h92⟩ hrest

theorem parse_set_head (l : List Byte) : ∃ e es, parse (91 :: l) = e :: es ∧ e ≠ .star ∧
    ∀ c, e ≠ .char c := by
  rw [parse_open]
  split_ifs
  · exact parseSet_head (inside _) _ _
  · exact parseSet_head (inside _) _ _

/-- The stars at the front of the elements are those of the pattern. -/
theorem parse_dropWhile (l : List Byte) : (parse l).dropWhile (· = .star) = parse (l.dropWhile (· = 42)) := by
  induction l with
  | nil => rfl
  | cons x l ih =>
    by_cases hx : x = 42
    · subst hx
      simpa using ih
    · have hhead : ∃ e es, parse (x :: l) = e :: es ∧ e ≠ .star := by
        cases outside (x :: l) with
        | star => exact absurd rfl hx
        | any => exact ⟨_, _, parse_any, by simp⟩
        | set =>
          obtain ⟨e, es, he, hne, -⟩ := parse_set_head l
          exact ⟨e, es, he, hne⟩
        | escaped => exact ⟨_, _, parse_escaped, by simp⟩
        | backslash => exact ⟨_, _, parse_backslash, by simp⟩
        | plain _ _ hp => exact ⟨_, _, parse_plain hp, by simp⟩
      obtain ⟨e, es, he, hne⟩ := hhead
      rw [he, List.dropWhile_cons_of_neg (by simpa using hne),
        List.dropWhile_cons_of_neg (by simpa using hx), he]

theorem parse_eq_nil : parse l = [] ↔ l = [] := by
  refine ⟨fun h => ?_, fun h => h ▸ parse_nil⟩
  cases outside l with
  | stop => rfl
  | star => simp at h
  | any => simp at h
  | set l =>
    obtain ⟨e, es, he, -⟩ := parse_set_head l
    exact nomatch he.symm.trans h
  | escaped => simp at h
  | backslash => simp at h
  | plain _ _ hp => simp [parse_plain hp] at h

theorem parse_all_star : (∀ e ∈ parse l, e = .star) ↔ l.dropWhile (· = 42) = [] := by
  rw [← parse_eq_nil, ← parse_dropWhile, List.dropWhile_eq_nil_iff]
  simp

theorem parse_word (hw : ∀ c ∈ w, Plain c) : parse w = w.map .char := by
  induction w with
  | nil => rfl
  | cons c w ih =>
    rw [parse_plain (hw c (by simp)), ih fun c hc => hw c (by simp [hc]), List.map_cons]

/-- Only a word has nothing but characters. -/
theorem eq_of_parse (h : parse l = w.map .char) : l = w := by
  have hl := outside l
  induction hl generalizing w with
  | stop =>
    cases w with
    | nil => rfl
    | cons c w => simp at h
  | star => cases w <;> simp at h
  | any => cases w <;> simp at h
  | set l =>
    obtain ⟨e, es, he, -, hne⟩ := parse_set_head l
    cases w with
    | nil => exact nomatch he.symm.trans h
    | cons c w => exact absurd (List.cons.inj (he.symm.trans h)).1 (hne c)
  | escaped => cases w <;> simp at h
  | backslash => cases w <;> simp at h
  | plain x l hx _ ih =>
    rw [parse_plain hx] at h
    cases w with
    | nil => simp at h
    | cons c w =>
      obtain ⟨hc, hrest⟩ := List.cons.inj h
      rw [ih hrest, Element.char.inj hc]

end Parse

end EagleMQ.Glob
