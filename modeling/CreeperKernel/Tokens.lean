import Mathlib.Data.List.TakeWhile

/- Splitting a string at a delimiter into its non-empty words, one word at a time, and at
its last delimiter. -/
namespace CreeperKernel.Tokens

variable {α : Type*} [DecidableEq α] {s : List α} {delim : α}

/-- The first word and what follows the delimiter after it. -/
def next (delim : α) (s : List α) : Option (List α × List α) :=
  match s.dropWhile (· == delim) with
  | [] => none
  | c :: rest =>
    some ((c :: rest).takeWhile (· != delim), ((c :: rest).dropWhile (· != delim)).tail)

/-- The words that `bound` calls of `next` find. -/
def tokensUpTo (delim : α) : Nat → List α → List (List α)
  | 0, _ => []
  | bound + 1, s =>
    match next delim s with
    | none => []
    | some (word, rest) => word :: tokensUpTo delim bound rest

def tokens (delim : α) (s : List α) : List (List α) := tokensUpTo delim s.length s

/-- A word is not empty and has no delimiter in it. -/
def Word (delim : α) (w : List α) : Prop := w ≠ [] ∧ delim ∉ w

instance (delim : α) (w : List α) : Decidable (Word delim w) := inferInstanceAs (Decidable (_ ∧ _))

theorem takeWhile_append_dropWhile_tail (met : delim ∈ s) :
    s.takeWhile (· != delim) ++ delim :: (s.dropWhile (· != delim)).tail = s := by
  induction s with
  | nil => cases met
  | cons c s ih =>
    by_cases same : c = delim
    · subst same
      simp
    · have later : delim ∈ s := by
        rcases List.mem_cons.mp met with rfl | later
        · exact absurd rfl same
        · exact later
      have keep : (c != delim) = true := by simpa using same
      rw [List.takeWhile_cons, List.dropWhile_cons, if_pos keep, if_pos keep, List.cons_append, ih later]

theorem not_mem_takeWhile (delim : α) (s : List α) : delim ∉ s.takeWhile (· != delim) := by
  intro met
  have kept := List.mem_takeWhile_imp met
  simp at kept

/-- What `next` finds: delimiters, a word, and the end or a delimiter and the rest. -/
theorem next_eq_some {s w rest : List α} (found : next delim s = some (w, rest)) :
    ∃ n, Word delim w ∧ (s = List.replicate n delim ++ w ∧ rest = [] ∨
      s = List.replicate n delim ++ w ++ delim :: rest) := by
  have skipped : ∃ n, s = List.replicate n delim ++ s.dropWhile (· == delim) := by
    refine ⟨(s.takeWhile (· == delim)).length, ?_⟩
    have all : s.takeWhile (· == delim) = List.replicate (s.takeWhile (· == delim)).length delim := by
      rw [List.eq_replicate_iff]
      refine ⟨rfl, fun c met => ?_⟩
      simpa using List.mem_takeWhile_imp met
    rw [← all, List.takeWhile_append_dropWhile]
  obtain ⟨n, front⟩ := skipped
  unfold next at found
  split at found
  · cases found
  · rename_i c tail shape
    rw [shape] at front
    cases found
    have first : (c != delim) = true := by
      have stop := List.head?_dropWhile_not (· == delim) s
      rw [shape] at stop
      simpa using stop
    have word : Word delim ((c :: tail).takeWhile (· != delim)) := by
      refine ⟨?_, not_mem_takeWhile delim _⟩
      rw [List.takeWhile_cons, if_pos first]
      exact List.cons_ne_nil _ _
    refine ⟨n, word, ?_⟩
    by_cases met : delim ∈ c :: tail
    · right
      rw [List.append_assoc, takeWhile_append_dropWhile_tail met]
      exact front
    · left
      have keep : ∀ x ∈ c :: tail, (x != delim) = true := by
        intro x member
        simp only [bne_iff_ne, ne_eq]
        rintro rfl
        exact met member
      have whole : (c :: tail).takeWhile (· != delim) = c :: tail := List.takeWhile_eq_self_iff.mpr keep
      have none : (c :: tail).dropWhile (· != delim) = [] := List.dropWhile_eq_nil_iff.mpr keep
      rw [whole, none]
      exact ⟨front, rfl⟩

theorem next_eq_none (none : next delim s = none) : ∃ n, s = List.replicate n delim := by
  unfold next at none
  split at none
  · rename_i all
    refine ⟨s.length, List.eq_replicate_iff.mpr ⟨rfl, fun c met => ?_⟩⟩
    simpa using List.dropWhile_eq_nil_iff.mp all c met
  · cases none

/-- The words of a string, all at once. -/
def words (delim : α) (s : List α) : List (List α) := (s.splitOn delim).filter (· ≠ [])

theorem words_append_cons (delim : α) (s t : List α) : words delim (s ++ delim :: t) = words delim s ++ words delim t := by
  unfold words List.splitOn
  rw [List.splitOnP_append_cons s t (by simp), List.filter_append]

@[simp] theorem words_nil (delim : α) : words delim [] = [] := by
  simp [words]

theorem words_cons_delim (delim : α) (s : List α) : words delim (delim :: s) = words delim s := by
  have split := words_append_cons delim [] s
  simpa using split

theorem words_replicate_append (delim : α) (n : Nat) (s : List α) :
    words delim (List.replicate n delim ++ s) = words delim s := by
  induction n with
  | zero => rfl
  | succ n ih => rw [List.replicate_succ, List.cons_append, words_cons_delim, ih]

theorem words_word {w : List α} (word : Word delim w) : words delim w = [w] := by
  have plain : ∀ c ∈ w, (c == delim) = false := by
    intro c met
    simp only [beq_eq_false_iff_ne, ne_eq]
    rintro rfl
    exact word.2 met
  unfold words List.splitOn
  rw [List.splitOnP_eq_singleton plain]
  simp [word.1]

theorem tokensUpTo_eq_words (delim : α) {bound : Nat} (enough : s.length ≤ bound) :
    tokensUpTo delim bound s = words delim s := by
  induction bound generalizing s with
  | zero =>
    rw [List.length_eq_zero_iff.mp (Nat.le_zero.mp enough), words_nil]
    rfl
  | succ bound ih =>
    rw [tokensUpTo]
    cases found : next delim s with
    | none =>
      obtain ⟨n, rfl⟩ := next_eq_none found
      have blank := words_replicate_append delim n []
      rw [List.append_nil, words_nil] at blank
      exact blank.symm
    | some pair =>
      obtain ⟨w, rest⟩ := pair
      obtain ⟨n, word, shape⟩ := next_eq_some found
      dsimp only
      rcases shape with ⟨rfl, rfl⟩ | rfl
      · rw [words_replicate_append, words_word word, ih (show [].length ≤ bound from Nat.zero_le bound), words_nil]
      · rw [List.append_assoc, words_replicate_append, words_append_cons, words_word word, ih]
        · rfl
        · simp only [List.length_append, List.length_replicate, List.length_cons] at enough
          omega

theorem tokens_eq_words (delim : α) (s : List α) : tokens delim s = words delim s :=
  tokensUpTo_eq_words delim (Nat.le_refl _)

theorem tokens_append_cons (delim : α) (s t : List α) :
    tokens delim (s ++ delim :: t) = tokens delim s ++ tokens delim t := by
  rw [tokens_eq_words, tokens_eq_words, tokens_eq_words, words_append_cons]

theorem tokens_cons_delim (delim : α) (s : List α) : tokens delim (delim :: s) = tokens delim s := by
  rw [tokens_eq_words, tokens_eq_words, words_cons_delim]

theorem tokens_word {w : List α} (word : Word delim w) : tokens delim w = [w] := by
  rw [tokens_eq_words, words_word word]

/-- The index of the last occurrence of a character. -/
def lastIndex (c : α) : List α → Option Nat
  | [] => none
  | d :: s =>
    match lastIndex c s with
    | some i => some (i + 1)
    | none => if d = c then some 0 else none

theorem lastIndex_eq_none {c : α} : lastIndex c s = none ↔ c ∉ s := by
  induction s with
  | nil => simp [lastIndex]
  | cons d s ih =>
    rw [lastIndex, List.mem_cons, not_or]
    cases later : lastIndex c s with
    | some i =>
      have met : c ∈ s := by
        by_contra absent
        rw [ih.mpr absent] at later
        cases later
      simp [met]
    | none =>
      have absent := ih.mp later
      by_cases same : d = c
      · simp [same]
      · simp [same, absent, Ne.symm same]

theorem lastIndex_spec {c : α} {i : Nat} (found : lastIndex c s = some i) :
    s = s.take i ++ c :: s.drop (i + 1) ∧ c ∉ s.drop (i + 1) := by
  induction s generalizing i with
  | nil => cases found
  | cons d s ih =>
    rw [lastIndex] at found
    cases later : lastIndex c s with
    | some j =>
      rw [later] at found
      cases found
      obtain ⟨whole, clean⟩ := ih later
      refine ⟨?_, clean⟩
      rw [List.take_succ_cons, List.drop_succ_cons, List.cons_append, ← whole]
    | none =>
      rw [later] at found
      dsimp only at found
      split at found
      · rename_i same
        cases found
        subst same
        exact ⟨rfl, lastIndex_eq_none.mp later⟩
      · cases found

end CreeperKernel.Tokens
