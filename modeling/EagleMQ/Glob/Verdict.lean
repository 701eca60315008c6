import EagleMQ.Glob.Matcher
import EagleMQ.Validators

/-! The verdicts of `pattern_match` against the language of the pattern: a topic
that is accepted is in the language, and one in the language is accepted when only
ordinary characters follow the first stars. -/

namespace EagleMQ.Glob

section Verdict

variable {es : List Element} {e : Element} {pattern topic t : List Byte} {c : Byte}

/-! ### Pieces -/

theorem piece_eq (h : e ≠ .star) : e.piece = .one e.accepts := by
  cases e <;> first | exact absurd rfl h | rfl

theorem matches_cons (h : e ≠ .star) :
    Piece.Matches ((e :: es).map Element.piece) (c :: t) ↔ e.accepts c = true ∧
    Piece.Matches (es.map Element.piece) t := by
  rw [List.map_cons, piece_eq h, Piece.matches_one_cons]

theorem not_matches_nil (es : List Element) (h : e ≠ .star) :
    ¬Piece.Matches ((e :: es).map Element.piece) [] := by
  rw [List.map_cons, piece_eq h]
  exact Piece.not_matches_one_nil

theorem matches_chars (w : List Byte) : Piece.Matches ((w.map Element.char).map Element.piece) t ↔ t = w := by
  rw [List.map_map]
  exact Piece.matches_word

/-- A run of stars is one star. -/
theorem matches_dropWhile (es : List Element) (t : List Byte) :
    Piece.Matches ((.star :: es).map Element.piece) t ↔
    Piece.Matches ((.star :: es.dropWhile (· = .star)).map Element.piece) t := by
  induction es with
  | nil => rfl
  | cons e es ih =>
    by_cases he : e = .star
    · subst he
      exact Piece.matches_star_star.trans ih
    · rw [List.dropWhile_cons_of_neg (by simpa using he)]

/-! ### The language -/

theorem verdict_empty (hstar : e ≠ .star) (hbroken : e ≠ .broken) : verdict (e :: es) [] = .ok false := by
  cases e <;> first | exact absurd rfl hstar | exact absurd rfl hbroken | rfl

theorem verdict_nil (h : .broken ∉ es) : verdict es [] = .ok (es.all (· = .star)) := by
  cases es with
  | nil => rfl
  | cons e es =>
    by_cases hstar : e = .star
    · subst hstar
      rw [verdict]
      congr 1
      rw [Bool.eq_iff_iff]
      simp
    · rw [verdict_empty hstar fun he => h (by simp [he])]
      simp [hstar]

theorem verdict_step (h : .broken ∉ e :: es) (hstar : e ≠ .star) :
    verdict (e :: es) (c :: t) = if e.accepts c then verdict es t else .ok false := by
  rw [verdict_cons hstar fun he => h (by simp [he])]
  by_cases ht : t = []
  · rw [if_pos ht, ht, verdict_nil fun hb => h (by simp [hb])]
  · rw [if_neg ht]

/-- What is accepted is in the language. -/
theorem verdict_sound (h : verdict es t = .ok true) : Piece.Matches (es.map Element.piece) t := by
  induction es generalizing t with
  | nil =>
    simp only [verdict, Except.ok.injEq, beq_iff_eq] at h
    exact h
  | cons e es ih =>
    by_cases hstar : e = .star
    · subst hstar
      simp only [verdict, Except.ok.injEq, List.any_eq_true, decide_eq_true_eq, List.mem_tails] at h
      obtain ⟨v, hv, hes⟩ := h
      rw [matches_dropWhile, hes]
      exact ⟨v, hv, (matches_chars v).mpr rfl⟩
    · by_cases hbroken : e = .broken
      · subst hbroken
        simp [verdict] at h
      · cases t with
        | nil =>
          rw [verdict_empty hstar hbroken] at h
          simp at h
        | cons c t =>
          rw [verdict_cons hstar hbroken] at h
          rw [matches_cons hstar]
          split_ifs at h with haccepts hempty
          · refine ⟨haccepts, ?_⟩
            rw [hempty, Piece.matches_empty]
            simp only [Except.ok.injEq, List.all_eq_true, decide_eq_true_eq] at h
            rintro q hq
            obtain ⟨e, he, rfl⟩ := List.mem_map.mp hq
            rw [h e he]
            rfl
          · exact ⟨haccepts, ih h⟩
          · simp at h

def Element.ordinary : Element → Bool
  | char _ => true
  | _ => false

/-- Only ordinary characters follow the first run of stars. -/
def Literal (es : List Element) : Prop :=
  ∀ e ∈ (es.dropWhile (· ≠ .star)).dropWhile (· = .star), e.ordinary = true

instance : Decidable (Literal es) := inferInstanceAs (Decidable (∀ e ∈ _, _))

theorem literal_star : Literal (.star :: es) ↔ ∃ w : List Byte, es.dropWhile (· = .star) = w.map .char := by
  rw [Literal, List.dropWhile_cons_of_neg (by simp), List.dropWhile_cons_of_pos (by simp)]
  generalize es.dropWhile (· = .star) = l
  induction l with
  | nil => exact ⟨fun _ => ⟨[], rfl⟩, fun _ _ h => nomatch h⟩
  | cons e l ih =>
    rw [List.forall_mem_cons, ih]
    constructor
    · rintro ⟨he, w, rfl⟩
      cases e with
      | char c => exact ⟨c :: w, rfl⟩
      | _ => exact absurd he Bool.false_ne_true
    · rintro ⟨w, hw⟩
      cases w with
      | nil => simp at hw
      | cons c w =>
        obtain ⟨rfl, hl⟩ := List.cons.inj hw
        exact ⟨rfl, w, hl⟩

theorem literal_cons (h : e ≠ .star) : Literal (e :: es) ↔ Literal es := by
  rw [Literal, List.dropWhile_cons_of_pos (by simpa using h)]
  rfl

/-- The verdict is right about the language of the elements. -/
def Right (es : List Element) (t : List Byte) : Prop :=
  ∃ b, verdict es t = .ok b ∧ (b = true ↔ Piece.Matches (es.map Element.piece) t)

theorem right_iff (h : .broken ∉ es) : Right es t ↔ Literal es ∨ ¬Piece.Matches (es.map Element.piece) t := by
  induction es generalizing t with
  | nil =>
    refine ⟨fun _ => .inl fun e he => (nomatch he), fun _ => ⟨_, rfl, ?_⟩⟩
    simp
  | cons e es ih =>
    by_cases hstar : e = .star
    · subst hstar
      constructor
      · rintro ⟨b, hb, hiff⟩
        by_contra hnot
        push Not at hnot
        obtain rfl := hiff.mpr hnot.2
        simp only [verdict, Except.ok.injEq, List.any_eq_true, decide_eq_true_eq] at hb
        obtain ⟨v, -, hes⟩ := hb
        exact hnot.1 (literal_star.mpr ⟨v, hes⟩)
      · refine fun hcond => ⟨_, rfl, fun hb => verdict_sound (by rw [verdict, hb]), fun hmatch => ?_⟩
        obtain ⟨w, hw⟩ := literal_star.mp (hcond.resolve_right fun hno => hno hmatch)
        rw [matches_dropWhile, hw] at hmatch
        obtain ⟨v, hv, hmatch⟩ := hmatch
        obtain rfl := (matches_chars w).mp hmatch
        rw [List.any_eq_true]
        exact ⟨v, (List.mem_tails _ _).mpr hv, decide_eq_true hw⟩
    · cases t with
      | nil =>
        have hno := not_matches_nil es hstar
        refine ⟨fun _ => .inr hno, fun _ => ⟨_, verdict_nil h, iff_of_false ?_ hno⟩⟩
        simp [hstar]
      | cons c t =>
        rw [literal_cons hstar, matches_cons hstar, Right, verdict_step h hstar, matches_cons hstar]
        by_cases haccepts : e.accepts c = true
        · simp only [haccepts, if_true, true_and]
          exact ih fun hb => h (by simp [hb])
        · simp [haccepts]

/-! ### Reads past the end -/

/-- A bracket expression that ends with a backslash at the end of the pattern is reached: no star is
in front of it, and what is takes a part of the topic only. -/
def Overreads (es : List Element) (t : List Byte) : Prop :=
  ∃ pre v u, pre ++ [.broken] <+: es ∧ .star ∉ pre ∧ t = v ++ u ∧ u ≠ [] ∧
    Piece.Matches (pre.map Element.piece) v

theorem overreads_broken : Overreads (.broken :: es) t ↔ t ≠ [] := by
  refine ⟨?_, fun ht => ⟨[], [], t, by simp, by simp, rfl, ht, rfl⟩⟩
  rintro ⟨-, v, u, -, -, ht, hu, -⟩
  simp [ht, hu]

theorem not_overreads_nil : ¬Overreads [] t := by
  rintro ⟨pre, -, -, hpre, -⟩
  simp at hpre

theorem not_overreads_star : ¬Overreads (.star :: es) t := by
  rintro ⟨pre, -, -, hpre, hstar, -⟩
  cases pre with
  | nil => simp at hpre
  | cons e pre =>
    obtain ⟨rfl, -⟩ := List.cons_prefix_cons.mp hpre
    simp at hstar

theorem not_overreads_empty : ¬Overreads es [] := by
  rintro ⟨-, v, u, -, -, ht, hu, -⟩
  simp at ht
  exact hu ht.2

theorem overreads_cons (hstar : e ≠ .star) (hbroken : e ≠ .broken) :
    Overreads (e :: es) (c :: t) ↔ e.accepts c = true ∧ Overreads es t := by
  constructor
  · rintro ⟨pre, v, u, hpre, hno, ht, hu, hmatch⟩
    cases pre with
    | nil =>
      obtain ⟨rfl, -⟩ := List.cons_prefix_cons.mp hpre
      exact absurd rfl hbroken
    | cons e' pre =>
      obtain ⟨rfl, hrest⟩ := List.cons_prefix_cons.mp hpre
      cases v with
      | nil => exact absurd hmatch (not_matches_nil _ hstar)
      | cons x v =>
        obtain ⟨rfl, htail⟩ := List.cons.inj ht
        obtain ⟨haccepts, hmatches⟩ := (matches_cons hstar).mp hmatch
        exact ⟨haccepts, pre, v, u, hrest, fun hs => hno (by simp [hs]), htail, hu, hmatches⟩
  · rintro ⟨haccepts, pre, v, u, hpre, hno, rfl, hu, hmatch⟩
    refine ⟨e :: pre, c :: v, u, List.cons_prefix_cons.mpr ⟨rfl, hpre⟩, ?_, rfl, hu,
      (matches_cons hstar).mpr ⟨haccepts, hmatch⟩⟩
    simp [hno, Ne.symm hstar]

theorem verdict_ok_iff (ht : t ≠ []) : (∃ b, verdict es t = .ok b) ↔ ¬Overreads es t := by
  induction es generalizing t with
  | nil => exact iff_of_true ⟨_, rfl⟩ not_overreads_nil
  | cons e es ih =>
    by_cases hstar : e = .star
    · subst hstar
      exact iff_of_true ⟨_, rfl⟩ not_overreads_star
    · by_cases hbroken : e = .broken
      · subst hbroken
        simp [verdict, overreads_broken, ht]
      · obtain ⟨c, t, rfl⟩ := List.exists_cons_of_ne_nil ht
        rw [overreads_cons hstar hbroken, verdict_cons hstar hbroken]
        by_cases haccepts : e.accepts c = true
        · rw [if_pos haccepts]
          by_cases hempty : t = []
          · subst hempty
            simp [not_overreads_empty]
          · simp only [if_neg hempty, haccepts, true_and]
            exact ih hempty
        · simp [haccepts]

/-! ### The matcher -/

theorem keyChar_plain (h : KeyChar c) : Plain c := by
  refine ⟨?_, ?_, ?_, ?_⟩ <;> rintro rfl <;> simp [KeyChar, Letter, Digit, Separator] at h

/-- The matcher returns, and reads within its strings, unless it comes to a bracket expression that
ends with a backslash at the end of the pattern. -/
theorem patternMatch_reads {m m' : ℕ → Byte} {size size' : ℕ} (htopic : checkInputBuffer1 m size ≠ 0) :
    (∃ b, patternMatch (slice m 0 (checkInputBuffer1 m size))
      (slice m' 0 (checkInputBuffer3 m' size')) false = .ok b) ↔
      ¬Overreads (parse (slice m' 0 (checkInputBuffer3 m' size')))
        (slice m 0 (checkInputBuffer1 m size)) := by
  have hne : slice m 0 (checkInputBuffer1 m size) ≠ [] := by simpa [slice] using htopic
  have hkey : KeyWord (slice m 0 (checkInputBuffer1 m size)) := fun c hc => by
    rw [checkInputBuffer1] at htopic hc
    split_ifs at htopic hc with hall
    · exact (keyChar_iff c).mp (List.all_eq_true.mp hall c hc)
    · exact absurd rfl htopic
  rw [patternMatch_eq hne fun c hc => keyChar_plain (hkey c hc)]
  exact verdict_ok_iff hne

theorem patternMatch_reads_closed :
    ∃ b, patternMatch (slice (ofList [97]) 0 (checkInputBuffer1 (ofList [97]) 32))
    (slice (ofList [91, 97, 93]) 0 (checkInputBuffer3 (ofList [91, 97, 93]) 32)) false = .ok b := by
  have hbroken : .broken ∉ parse
      (slice (ofList [91, 97, 93]) 0 (checkInputBuffer3 (ofList [91, 97, 93]) 32)) := by decide
  refine (patternMatch_reads (by decide)).mpr ?_
  rintro ⟨pre, v, u, hpre, -⟩
  exact hbroken (hpre.subset (by simp))

/-- The topic `a` and a pattern of a bracket and a backslash. -/
theorem not_patternMatch_reads : ¬∀ (m m' : ℕ → Byte) (size size' : ℕ), checkInputBuffer1 m size ≠ 0 →
    checkInputBuffer3 m' size' ≠ 0 →
    ∃ b, patternMatch (slice m 0 (checkInputBuffer1 m size))
      (slice m' 0 (checkInputBuffer3 m' size')) false = .ok b := by
  intro h
  obtain ⟨b, hb⟩ := h (ofList [97]) (ofList [91, 92]) 32 32 (by decide) (by decide)
  have hover : patternMatch (slice (ofList [97]) 0 (checkInputBuffer1 (ofList [97]) 32))
      (slice (ofList [91, 92]) 0 (checkInputBuffer3 (ofList [91, 92]) 32)) false =
      .error .overread := by decide +kernel
  exact nomatch hover.symm.trans hb

end Verdict

end EagleMQ.Glob
