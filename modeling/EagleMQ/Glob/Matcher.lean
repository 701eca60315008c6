import EagleMQ.Glob

/-! What `pattern_match` computes, for a topic without special characters. Behind
the first stars the matcher compares the rest of the pattern, as a string, with the
ends of the topic; a bracket expression that ends with a backslash is read past the
end of the pattern. -/

namespace EagleMQ.Glob

/-- The rest of a string behind a part that has been read. -/
def cursor (pre rest : List Byte) : Cursor := ⟨pre ++ rest, pre.length, rest.length⟩

section Cursor

variable {pre pre' l v w t : List Byte} {x c : Byte} {n i : ℕ}

theorem charAt_append (pre l : List Byte) (i : ℕ) : charAt (pre ++ l) (pre.length + i) = charAt l i := by
  simp [charAt, List.getElem?_append_right]

@[simp] theorem charAt_zero : charAt (x :: l) 0 = .ok x := by simp [charAt]

@[simp] theorem charAt_succ : charAt (x :: l) (i + 1) = charAt l i := by simp [charAt]

@[simp] theorem charAt_nil : charAt [] 0 = .ok 0 := rfl

@[simp] theorem charAt_nil_succ : charAt [] (i + 1) = .error .overread := by simp [charAt]

theorem charAt_pre (pre l : List Byte) : charAt (pre ++ l) pre.length = charAt l 0 := charAt_append pre l 0

theorem charAt_end (l : List Byte) : charAt l l.length = .ok 0 := by simp [charAt]

@[simp] theorem cursor_get : (cursor pre (x :: l)).get = .ok x := by
  rw [Cursor.get, cursor, charAt_pre, charAt_zero]

@[simp] theorem cursor_advance : (cursor pre (x :: l)).advance = cursor (pre ++ [x]) l := by
  simp [Cursor.advance, cursor]

@[simp] theorem cursor_length : (cursor pre l).length = l.length := rfl

@[simp] theorem toLower_false : toLower false x = x := rfl

/-! ### Stars -/

theorem skipTrailing_spec : ∀ {l : List Byte} (pre : List Byte) {n : ℕ}, l.length < n →
    ∃ i, skipTrailing (pre ++ l) n pre.length l.length = .ok (i, (l.dropWhile (· = 42)).length)
  | l, pre, 0, h => by simp at h
  | [], pre, n + 1, _ => ⟨pre.length, by simp [skipTrailing, charAt_end, bind, Except.bind]⟩
  | x :: l, pre, n + 1, h => by
    have hread : charAt (pre ++ x :: l) pre.length = .ok x := by rw [charAt_pre, charAt_zero]
    by_cases hx : x = 42
    · subst hx
      obtain ⟨i, hi⟩ := skipTrailing_spec (l := l) (pre ++ [42]) (n := n) (by simpa using h)
      refine ⟨i, ?_⟩
      simp only [List.append_assoc, List.singleton_append, List.length_append, List.length_singleton] at hi
      simp [skipTrailing, hread, bind, Except.bind, ← hi]
    · exact ⟨pre.length, by simp [skipTrailing, hread, bind, Except.bind, hx]⟩

theorem skipStars_spec : ∀ {l : List Byte} (pre : List Byte) {n : ℕ}, l.length < n →
    ∃ pre', pre ++ 42 :: l = pre' ++ 42 :: l.dropWhile (· = 42) ∧
      skipStars (pre ++ 42 :: l) n pre.length (l.length + 1) =
        .ok (pre'.length, (l.dropWhile (· = 42)).length + 1)
  | l, pre, 0, h => by simp at h
  | [], pre, n + 1, _ => ⟨pre, rfl, by simp [skipStars, charAt_append, bind, Except.bind]⟩
  | x :: l, pre, n + 1, h => by
    have hread : charAt (pre ++ 42 :: x :: l) (pre.length + 1) = .ok x := by
      rw [charAt_append, charAt_succ, charAt_zero]
    by_cases hx : x = 42
    · subst hx
      obtain ⟨pre', hpre, hi⟩ := skipStars_spec (l := l) (pre ++ [42]) (n := n) (by simpa using h)
      simp only [List.append_assoc, List.singleton_append, List.length_append,
        List.length_singleton] at hpre hi
      refine ⟨pre', by simpa using hpre, ?_⟩
      simp [skipStars, hread, bind, Except.bind, ← hi]
    · exact ⟨pre, by simp [hx], by simp [skipStars, hread, bind, Except.bind, hx]⟩

/-! ### Bracket expressions -/

/-- What the loop over a bracket expression returns, by how the pattern goes on. -/
def Scanned (c : Byte) (negated : Bool) (items : List Item) (pre l : List Byte)
    (r : Except Fault (Bool × ℕ × ℤ)) : Prop :=
  (∃ items' l' pre', parseSet negated items l = .set negated items' :: parse l' ∧
    pre ++ l = pre' ++ 93 :: l' ∧
    l'.length < l.length ∧ r = .ok (items'.any (Item.contains c), pre'.length, l'.length + 1)) ∨
  (∃ items', parseSet negated items l = [.unclosed negated items'] ∧
    r = .ok (items'.any (Item.contains c), (pre ++ l).length - 1, 1)) ∨
  parseSet negated items l = [.broken] ∧ r = .error .overread

theorem Scanned.mono {negated : Bool} {items items' : List Item} {r : Except Fault (Bool × ℕ × ℤ)}
    {w : List Byte}
    (h : Scanned c negated items' (pre ++ w) l r)
    (hparse : parseSet negated items (w ++ l) = parseSet negated items' l) :
    Scanned c negated items pre (w ++ l) r := by
  rw [Scanned, hparse, ← List.append_assoc]
  rcases h with ⟨items'', l', pre', hset, hsplit, hlt, hr⟩ | h | h
  · exact .inl ⟨items'', l', pre', hset, hsplit, by simp only [List.length_append]; omega, hr⟩
  · exact .inr (.inl h)
  · exact .inr (.inr h)

/-! One turn of the loop. -/

theorem bracket_escaped (found : Bool) : bracket false (pre ++ 92 :: x :: l) (.ok c) (n + 1) found pre.length
    (92 :: x :: l).length = bracket false (pre ++ [92, x] ++ l) (.ok c) n (found || x == c)
      (pre ++ [92, x]).length
      l.length := by
  have hx : charAt (pre ++ 92 :: x :: l) pre.length = .ok 92 := by rw [charAt_pre, charAt_zero]
  have hy : charAt (pre ++ 92 :: x :: l) (pre.length + 1) = .ok x := by
    rw [charAt_append, charAt_succ, charAt_zero]
  have hlen : (((92 :: x :: l).length : ℕ) : ℤ) - 2 = l.length := by simp only [List.length_cons]; omega
  simp only [bracket, hx, hy, bind, Except.bind, if_true, hlen]
  simp

theorem bracket_range (hx : x ≠ 92 ∧ x ≠ 93) (z : Byte) (found : Bool) :
    bracket false (pre ++ x :: 45 :: z :: l) (.ok c) (n + 1) found pre.length (x :: 45 :: z :: l).length =
      bracket false (pre ++ [x, 45, z] ++ l) (.ok c) n (found || (Item.range x z).contains c)
        (pre ++ [x, 45, z]).length l.length := by
  have h0 : charAt (pre ++ x :: 45 :: z :: l) pre.length = .ok x := by rw [charAt_pre, charAt_zero]
  have h1 : charAt (pre ++ x :: 45 :: z :: l) (pre.length + 1) = .ok 45 := by
    rw [charAt_append, charAt_succ, charAt_zero]
  have h2 : charAt (pre ++ x :: 45 :: z :: l) (pre.length + 2) = .ok z := by
    rw [charAt_append, charAt_succ, charAt_succ, charAt_zero]
  have hne : (((x :: 45 :: z :: l).length : ℕ) : ℤ) ≠ 0 := by simp only [List.length_cons]; omega
  have hge : (3 : ℤ) ≤ ((x :: 45 :: z :: l).length : ℕ) := by simp only [List.length_cons]; omega
  have hlen : (((x :: 45 :: z :: l).length : ℕ) : ℤ) - 3 = l.length := by simp only [List.length_cons]; omega
  simp only [bracket, h0, h1, h2, bind, Except.bind, if_neg hx.1, if_neg hx.2, if_neg hne, hlen]
  rw [if_pos ⟨trivial, hge⟩]
  simp [Item.contains]

theorem bracket_member (hx : x ≠ 92 ∧ x ≠ 93) (hl : ¬(l.head? = some 45 ∧ 2 ≤ l.length)) (found : Bool) :
    bracket false (pre ++ x :: l) (.ok c) (n + 1) found pre.length (x :: l).length =
      bracket false (pre ++ [x] ++ l) (.ok c) n (found || x == c) (pre ++ [x]).length l.length := by
  have h0 : charAt (pre ++ x :: l) pre.length = .ok x := by rw [charAt_pre, charAt_zero]
  have h1 : charAt (pre ++ x :: l) (pre.length + 1) = .ok (l.head?.getD 0) := by
    rw [charAt_append, charAt_succ]
    cases l <;> simp
  have hne : (((x :: l).length : ℕ) : ℤ) ≠ 0 := by simp only [List.length_cons]; omega
  have hno : ¬(l.head?.getD 0 = 45 ∧ (3 : ℤ) ≤ ((x :: l).length : ℕ)) := by
    rintro ⟨hhead, hge⟩
    simp only [List.length_cons] at hge
    refine hl ⟨?_, by omega⟩
    cases l with
    | nil => simp at hhead
    | cons y l => simpa using hhead
  have hlen : (((x :: l).length : ℕ) : ℤ) - 1 = l.length := by simp only [List.length_cons]; omega
  simp only [bracket, h0, h1, bind, Except.bind, if_neg hx.1, if_neg hx.2, if_neg hne, if_neg hno, hlen]
  simp

/-- The loop reads the bracket expression that the pattern has, or past its end. -/
theorem bracket_spec (c : Byte) (negated : Bool) (h : Inside l) :
    ∀ (pre : List Byte) (items : List Item) (n : ℕ),
    l.length < n → Scanned c negated items pre l
      (bracket false (pre ++ l) (.ok c) n (items.any (Item.contains c)) pre.length l.length) := by
  induction h with
  | stop =>
    rintro pre items (- | n) hn
    · simp at hn
    · refine .inr (.inl ⟨items, parseSet_nil, ?_⟩)
      simp [bracket, charAt_end, bind, Except.bind]
  | broken =>
    rintro pre items (- | - | n) hn
    · simp at hn
    · simp at hn
    · refine .inr (.inr ⟨parseSet_broken, ?_⟩)
      simp [bracket, charAt_pre, charAt_append, bind, Except.bind]
  | close l =>
    rintro pre items (- | n) hn
    · simp at hn
    · refine .inl ⟨items, l, pre, parseSet_close, rfl, by simp, ?_⟩
      simp [bracket, charAt_pre, bind, Except.bind]
  | escaped x l _ ih =>
    rintro pre items (- | n) hn
    · simp at hn
    · have hrest := ih (pre ++ [92, x]) (items ++ [.member x]) n (by simp at hn; omega)
      rw [List.any_append, List.any_cons, List.any_nil, Bool.or_false] at hrest
      exact bracket_escaped _ ▸ hrest.mono (w := [92, x]) parseSet_escaped
  | range x z l hx _ ih =>
    rintro pre items (- | n) hn
    · simp at hn
    · have hrest := ih (pre ++ [x, 45, z]) (items ++ [.range x z]) n (by simp at hn; omega)
      rw [List.any_append, List.any_cons, List.any_nil, Bool.or_false] at hrest
      exact bracket_range hx z _ ▸ hrest.mono (w := [x, 45, z]) (parseSet_range hx z)
  | member x l hx hl _ ih =>
    rintro pre items (- | n) hn
    · simp at hn
    · have hrest := ih (pre ++ [x]) (items ++ [.member x]) n (by simpa using hn)
      rw [List.any_append, List.any_cons, List.any_nil, Bool.or_false] at hrest
      exact bracket_member hx hl _ ▸ hrest.mono (w := [x]) (parseSet_member hx hl)

/-! ### One turn of the matcher -/

theorem matchNext_spec (pre' pre t l : List Byte) (n : ℕ) :
    matchNext false (n + 1) (cursor pre' t) (cursor pre l) =
      if t = [] then .ok (decide (l.dropWhile (· = 42) = []))
      else patternMatchLength false n (cursor pre' t) (cursor pre l) := by
  rw [matchNext]
  by_cases ht : t = []
  · obtain ⟨i, hi⟩ := skipTrailing_spec (l := l) pre (n := (pre ++ l).length + 2) (by simp; omega)
    rw [ht, cursor_length, List.length_nil, if_pos (by rfl), if_pos rfl, cursor]
    simp only [hi, bind, Except.bind]
    cases l.dropWhile (· = 42) with
    | nil => rfl
    | cons y l =>
      have hne : ¬(((y :: l).length : ℤ) = 0) := by simp only [List.length_cons]; omega
      simpa using hne
  · have hne : ¬(t.length : ℤ) = 0 := by simpa using ht
    rw [cursor_length, if_neg hne, if_neg ht]

theorem match_plain (hx : Plain x) (pre' pre w l : List Byte) (n : ℕ) :
    patternMatchLength false (n + 1) (cursor pre' (c :: w)) (cursor pre (x :: l)) =
      if c = x then matchNext false n (cursor (pre' ++ [c]) w) (cursor (pre ++ [x]) l) else .ok false := by
  have hne : ¬((x :: l).length : ℤ) = 0 := by simp only [List.length_cons]; omega
  have hescape : ¬(x = 92 ∧ (2 : ℤ) ≤ (x :: l).length) := fun h => hx.2.2.2 h.1
  rw [patternMatchLength]
  simp only [cursor_length, if_neg hne, cursor_get, bind, Except.bind, if_neg hx.1, if_neg hx.2.1,
    if_neg hx.2.2.1,
    if_neg hescape, toLower_false, cursor_advance]
  by_cases hc : c = x
  · simp [hc]
  · rw [if_pos (Ne.symm hc), if_neg hc]

/-- A topic, taken as a pattern, matches itself only. -/
theorem match_word : ∀ {w v : List Byte} (pre' pre : List Byte) {n : ℕ}, w ≠ [] →
    (∀ c ∈ v, Plain c) → 2 * v.length < n →
    patternMatchLength false n (cursor pre' w) (cursor pre v) = .ok (decide (w = v))
  | _, _, _, _, 0, _, _, hn => by omega
  | w, [], pre', pre, n + 1, hw, _, _ => by
    rw [patternMatchLength]
    simp [hw]
  | [], _ :: _, _, _, _ + 1, hw, _, _ => absurd rfl hw
  | c :: w, x :: v, pre', pre, n + 1, _, hv, hn => by
    have hvx : ∀ c ∈ v, Plain c := fun c hc => hv c (by simp [hc])
    obtain ⟨n, rfl⟩ : ∃ k, n = k + 1 := ⟨n - 1, by simp at hn; omega⟩
    rw [match_plain (hv x (by simp)), matchNext_spec]
    by_cases hc : c = x
    · by_cases hw : w = []
      · have hdrop : v.dropWhile (· = 42) = v := by
          cases v with
          | nil => rfl
          | cons y v => exact List.dropWhile_cons_of_neg (by simpa using (hvx y (by simp)).1)
        subst hc hw
        simp [hdrop, eq_comm]
      · rw [if_pos hc, if_neg hw, match_word _ _ hw hvx (by simp at hn; omega)]
        simp [hc]
    · simp [hc]

/-- The loop behind a star looks for the rest of the pattern among the ends of the topic. -/
theorem matchStar_spec (hw : w ≠ []) : ∀ {v : List Byte} (pre' pre : List Byte) {n : ℕ}, (∀ c ∈ v, Plain c) →
    3 * v.length < n → matchStar false n (cursor pre' w) (cursor pre v) = .ok (decide (w <:+ v))
  | _, _, _, 0, _, hn => by omega
  | [], pre', pre, n + 1, _, _ => by
    rw [matchStar]
    simp [hw]
  | x :: v, pre', pre, n + 1, hv, hn => by
    have hne : ¬((x :: v).length : ℤ) = 0 := by simp only [List.length_cons]; omega
    have hvx : ∀ c ∈ v, Plain c := fun c hc => hv c (by simp [hc])
    rw [matchStar, cursor_length, if_neg hne, match_word _ _ hw hv (by simp at hn ⊢; omega), cursor_advance,
      matchStar_spec hw _ _ hvx (by simp at hn; omega)]
    simp only [bind, Except.bind, List.suffix_cons_iff]
    by_cases hself : w = x :: v
    · simp [hself]
    · simp [hself]

theorem match_any (pre' pre t l : List Byte) (n : ℕ) :
    patternMatchLength false (n + 1) (cursor pre' (c :: t)) (cursor pre (63 :: l)) =
      matchNext false n (cursor (pre' ++ [c]) t) (cursor (pre ++ [63]) l) := by
  have hne : ¬((63 :: l).length : ℤ) = 0 := by simp only [List.length_cons]; omega
  have hstring : ¬((c :: t).length : ℤ) = 0 := by simp only [List.length_cons]; omega
  rw [patternMatchLength]
  simp only [cursor_length, if_neg hne, cursor_get, bind, Except.bind, cursor_advance]
  rw [if_neg (by decide), if_pos trivial, if_neg hstring]

theorem match_escaped (pre' pre t l : List Byte) (n : ℕ) :
    patternMatchLength false (n + 1) (cursor pre' (c :: t)) (cursor pre (92 :: x :: l)) =
      if c = x then matchNext false n (cursor (pre' ++ [c]) t) (cursor (pre ++ [92, x]) l) else .ok
        false := by
  have hne : ¬((92 :: x :: l).length : ℤ) = 0 := by simp only [List.length_cons]; omega
  have htwo : (2 : ℤ) ≤ (92 :: x :: l).length := by simp only [List.length_cons]; omega
  rw [patternMatchLength]
  simp only [cursor_length, if_neg hne, cursor_get, bind, Except.bind, cursor_advance]
  rw [if_neg (by decide), if_neg (by decide), if_neg (by decide), if_pos ⟨trivial, htwo⟩]
  simp only [cursor_get, toLower_false, cursor_advance]
  by_cases hc : c = x
  · simp [hc]
  · rw [if_pos (Ne.symm hc), if_neg hc]

theorem match_backslash (pre' pre t : List Byte) (n : ℕ) :
    patternMatchLength false (n + 1) (cursor pre' (c :: t)) (cursor pre [92]) =
      if c = 92 then matchNext false n (cursor (pre' ++ [c]) t) (cursor (pre ++ [92]) []) else .ok false := by
  rw [patternMatchLength]
  simp only [cursor_length, cursor_get, bind, Except.bind, cursor_advance]
  by_cases hc : c = 92
  · simp [hc]
  · simp [hc, Ne.symm hc]

theorem match_star (pre' pre t l : List Byte) (n : ℕ) :
    ∃ pre'', patternMatchLength false (n + 1) (cursor pre' t) (cursor pre (42 :: l)) =
      if l.dropWhile (· = 42) = [] then .ok true
      else matchStar false n (cursor pre'' (l.dropWhile (· = 42))) (cursor pre' t) := by
  obtain ⟨pre'', hsplit, hi⟩ := skipStars_spec (l := l) pre (n := (pre ++ 42 :: l).length + 2)
    (by simp; omega)
  have hne : ¬((42 :: l).length : ℤ) = 0 := by simp only [List.length_cons]; omega
  refine ⟨pre'' ++ [42], ?_⟩
  rw [patternMatchLength]
  simp only [cursor_length, if_neg hne, cursor_get, bind, Except.bind]
  rw [if_pos trivial]
  have hcast : (((42 :: l).length : ℕ) : ℤ) = l.length + 1 := by simp
  simp only [cursor, hcast, hi]
  by_cases hl : l.dropWhile (· = 42) = []
  · simp [hl]
  · have hone : ¬(((l.dropWhile (· = 42)).length : ℤ) + 1 = 1) := by
      rw [← List.length_eq_zero_iff] at hl
      omega
    rw [if_neg hl]
    simp only [if_neg hone, hsplit, List.length_append, List.length_singleton, add_sub_cancel_right]
    simp

/-- The caret of a bracket expression is read, and the loop starts behind it. -/
theorem match_open (pre' pre t l : List Byte) (n : ℕ) :
    ∃ negated pre₁ l₁, parse (91 :: l) = parseSet negated [] l₁ ∧
    pre₁ ≠ [] ∧ l₁.length ≤ l.length ∧
    patternMatchLength false (n + 1) (cursor pre' (c :: t)) (cursor pre (91 :: l)) = (do
      let (found, i, len) ← bracket false (pre₁ ++ l₁) (.ok c) ((pre₁ ++ l₁).length + 4) false
        pre₁.length l₁.length
      if found == negated then .ok false
      else matchNext false n (cursor (pre' ++ [c]) t) ⟨pre₁ ++ l₁, i + 1, len - 1⟩) := by
  have hne : ¬((91 :: l).length : ℤ) = 0 := by simp only [List.length_cons]; omega
  have hcaret : charAt (pre ++ 91 :: l) (pre.length + 1) = .ok (l.head?.getD 0) := by
    rw [charAt_append, charAt_succ]
    cases l <;> simp
  rw [patternMatchLength]
  simp only [cursor_length, if_neg hne, cursor_get, bind, Except.bind, cursor_advance]
  rw [if_neg (by decide), if_neg (by decide), if_pos trivial]
  simp only [cursor, hcaret]
  by_cases hhead : l.head? = some 94
  · obtain ⟨l, rfl⟩ := List.head?_eq_some_iff.mp hhead
    have hlen : (l.length : ℤ) + 1 + 1 - 2 = l.length := by omega
    refine ⟨true, pre ++ [91, 94], l, by rw [parse_open, if_pos hhead]; rfl, by simp, by simp, ?_⟩
    simp [hlen]
  · have hbeq : (l.head?.getD 0 == 94) = false := by
      cases l with
      | nil => rfl
      | cons y l => simpa using hhead
    refine ⟨false, pre ++ [91], l, by rw [parse_open, if_neg hhead], by simp, le_rfl, ?_⟩
    simp [hbeq]

/-- A turn over an element other than a star takes one character, or reads past the end of
the pattern. -/
def Turn (pre' : List Byte) (c : Byte) (t pre l : List Byte) (n : ℕ) : Prop :=
  (∃ e l' pre'', parse l = e :: parse l' ∧ e ≠ .star ∧ e ≠ .broken ∧ l'.length < l.length ∧
    patternMatchLength false (n + 1) (cursor pre' (c :: t)) (cursor pre l) =
      if e.accepts c then matchNext false n (cursor (pre' ++ [c]) t) (cursor pre'' l') else .ok false) ∨
  parse l = [.broken] ∧ patternMatchLength false (n + 1) (cursor pre' (c :: t)) (cursor pre l) =
    .error .overread

theorem turn_set (pre' pre t l : List Byte) (n : ℕ) : Turn pre' c t pre (91 :: l) n := by
  obtain ⟨negated, pre₁, l₁, hparse, hpre, hle, hturn⟩ := match_open (c := c) pre' pre t l n
  have hscanned := bracket_spec c negated (inside l₁) pre₁ [] ((pre₁ ++ l₁).length + 4) (by simp; omega)
  rw [List.any_nil] at hscanned
  rw [Turn, hparse, hturn]
  rcases hscanned with ⟨items, l', pre'', hset, hclose, hlt, hr⟩ | ⟨items, hset, hr⟩ | ⟨hset, hr⟩
  · refine .inl ⟨.set negated items, l', pre'' ++ [93],
      hset, by simp, by simp, by simp only [List.length_cons]; omega, ?_⟩
    rw [hr, hclose]
    simp only [bind, Except.bind, add_sub_cancel_right, Element.accepts]
    by_cases hf : items.any (Item.contains c) == negated
    · simp [bne, hf]
    · simp [bne, hf, cursor]
  · refine .inl ⟨.unclosed negated items, [], pre₁ ++ l₁, hset, by simp, by simp, by simp, ?_⟩
    rw [hr]
    simp only [bind, Except.bind, Element.accepts]
    have hend : (pre₁ ++ l₁).length - 1 + 1 = (pre₁ ++ l₁).length :=
      Nat.sub_add_cancel (List.length_pos_of_ne_nil (by simp [hpre]))
    rw [hend]
    by_cases hf : items.any (Item.contains c) == negated
    · simp [bne, hf]
    · simp [bne, hf, cursor]
  · refine .inr ⟨hset, ?_⟩
    rw [hr]
    rfl

theorem turn {l : List Byte} (hl : l ≠ []) (hstar : l.head? ≠ some 42) (pre' pre t : List Byte) (n : ℕ) :
    Turn pre' c t pre l n := by
  cases outside l with
  | stop => exact absurd rfl hl
  | star => exact absurd rfl hstar
  | any l => exact .inl ⟨.any, l, _, parse_any, by simp, by simp, by simp, match_any pre' pre t l n⟩
  | set l => exact turn_set pre' pre t l n
  | escaped x l =>
    refine .inl ⟨.escaped x, l, pre ++ [92, x],
      parse_escaped, by simp, by simp, by simp only [List.length_cons]; omega, ?_⟩
    simpa [Element.accepts] using match_escaped pre' pre t l n
  | backslash =>
    refine .inl ⟨.backslash, [], pre ++ [92], parse_backslash, by simp, by simp, by simp, ?_⟩
    simpa [Element.accepts] using match_backslash pre' pre t n
  | plain x l hx =>
    refine .inl ⟨.char x, l, pre ++ [x], parse_plain hx, by simp, by simp, by simp, ?_⟩
    simpa [Element.accepts] using match_plain hx pre' pre t l n

/-! ### The verdict -/

/-- What the matcher makes of a topic. -/
def verdict : List Element → List Byte → Except Fault Bool
  | [], topic => .ok (topic == [])
  | .star :: es, topic => .ok (topic.tails.any fun v => es.dropWhile (· = .star) = v.map .char)
  | .broken :: _, _ => .error .overread
  | _ :: _, [] => .ok false
  | e :: es, c :: topic =>
    if e.accepts c then
      if topic = [] then .ok (es.all (· = .star)) else verdict es topic
    else .ok false

theorem verdict_cons {e : Element} {es : List Element} (hstar : e ≠ .star) (hbroken : e ≠ .broken) :
    verdict (e :: es) (c :: t) =
      if e.accepts c then if t = [] then .ok (es.all (· = .star)) else verdict es t else .ok false := by
  cases e <;> first | exact absurd rfl hstar | exact absurd rfl hbroken | rfl

theorem verdict_star (ht : ∀ c ∈ t, Plain c) :
    verdict (parse (42 :: l)) t = .ok (decide (l.dropWhile (· = 42) <:+ t)) := by
  rw [parse_star, verdict, parse_dropWhile]
  congr 1
  rw [Bool.eq_iff_iff, List.any_eq_true, decide_eq_true_iff]
  constructor
  · rintro ⟨v, hv, hparse⟩
    rw [eq_of_parse (of_decide_eq_true hparse)]
    exact (List.mem_tails _ _).mp hv
  · intro h
    exact ⟨_, (List.mem_tails _ _).mpr h, decide_eq_true (parse_word fun c hc => ht c (h.subset hc))⟩

theorem patternMatchLength_spec : ∀ {l t : List Byte} (pre' pre : List Byte) {n : ℕ}, t ≠ [] →
    (∀ c ∈ t, Plain c) →
    2 * l.length + 3 * t.length < n → patternMatchLength false n (cursor pre' t) (cursor pre l) =
      verdict (parse l) t := by
  intro l
  induction hlen : l.length using Nat.strongRecOn generalizing l with
  | ind k ih =>
  subst hlen
  rintro t pre' pre (- | n) ht hplain hn
  · omega
  by_cases hl : l = []
  · subst hl
    rw [patternMatchLength, parse_nil, verdict, cursor_length, List.length_nil, if_pos (by rfl)]
    cases t with
    | nil => exact absurd rfl ht
    | cons c t =>
      have hne : ¬(((c :: t).length : ℤ) = 0) := by simp only [List.length_cons]; omega
      simpa using hne
  by_cases hstar : l.head? = some 42
  · obtain ⟨l, rfl⟩ := List.head?_eq_some_iff.mp hstar
    obtain ⟨pre'', hmatch⟩ := match_star pre' pre t l n
    rw [hmatch, verdict_star hplain]
    split_ifs with hrest
    · rw [hrest, decide_eq_true t.nil_suffix]
    · exact matchStar_spec hrest _ _ hplain (by simp only [List.length_cons] at hn; omega)
  obtain ⟨c, t, rfl⟩ := List.exists_cons_of_ne_nil ht
  rcases turn hl hstar pre' pre t n with ⟨e, l', pre'', hparse, hne, hnb, hlt, hmatch⟩ | ⟨hparse, hmatch⟩
  · obtain ⟨n, rfl⟩ : ∃ k, n = k + 1 := ⟨n - 1, by simp only [List.length_cons] at hn; omega⟩
    rw [hmatch, hparse, verdict_cons hne hnb, matchNext_spec]
    by_cases hempty : t = []
    · have hall : decide (l'.dropWhile (· = 42) = []) = (parse l').all (· = .star) := by
        rw [Bool.eq_iff_iff, decide_eq_true_iff, ← parse_all_star, List.all_eq_true]
        simp
      rw [if_pos hempty, if_pos hempty, hall]
    · rw [if_neg hempty, if_neg hempty, ih l'.length hlt rfl _ _ hempty (fun c hc => hplain c (by simp [hc]))
        (by simp only [List.length_cons] at hn; omega)]
  · rw [hmatch, hparse, verdict]

theorem patternMatch_eq {topic pattern : List Byte} (hne : topic ≠ []) (hplain : ∀ c ∈ topic, Plain c) :
    patternMatch topic pattern false = verdict (parse pattern) topic := by
  have hfuel : 2 * pattern.length + 3 * topic.length <
      2 * (topic.length + pattern.length + 2) * (topic.length + pattern.length + 2) := by
    have := Nat.mul_le_mul_left (2 * (topic.length + pattern.length + 2))
      (show 2 ≤ topic.length + pattern.length + 2 by omega)
    omega
  exact patternMatchLength_spec [] [] hne hplain hfuel

end Cursor

end EagleMQ.Glob
