import Mathlib.Data.List.TakeWhile
import ShaderIR.Proofs.Text.Reading
import ShaderIR.Text.Segments

/-!
# What the segments of a text are

A text is made of parts with commas between them, and there is one way only to divide it so that
no part has a comma. The segments are what is left of the parts without the white space around
them, as far as anything is left.
-/

set_option autoImplicit false

namespace ShaderIR.Text

/-- With commas between them, parts without commas are a text. -/
structure Divides (parts : List (List Char)) (cs : List Char) : Prop where
  ne_nil : parts ≠ []
  notMem : ∀ p ∈ parts, ',' ∉ p
  intercalate : [','].intercalate parts = cs

theorem commaParts_eq_splitOn (cs : List Char) : commaParts cs = cs.splitOn ',' := by
  induction cs with
  | nil => rfl
  | cons c cs ih =>
    rw [commaParts, ih, List.splitOn_cons_eq_if_modifyHead]
    simp only [beq_iff_eq]
    split
    · rfl
    · cases hparts : cs.splitOn ',' with
      | nil => exact absurd hparts (List.splitOn_ne_nil _ cs)
      | cons p ps => rfl

theorem notMem_of_mem_commaParts {cs p : List Char} (hp : p ∈ commaParts cs) : ',' ∉ p := by
  induction cs generalizing p with
  | nil =>
    obtain rfl := List.mem_singleton.mp hp
    exact List.not_mem_nil
  | cons c cs ih =>
    rw [commaParts] at hp
    split at hp
    · rcases List.mem_cons.mp hp with rfl | hp
      · exact List.not_mem_nil
      · exact ih hp
    · next hc =>
      split at hp
      · obtain rfl := List.mem_singleton.mp hp
        exact fun hmem => hc (List.mem_singleton.mp hmem).symm
      · next q qs hparts =>
        rw [hparts] at ih
        rcases List.mem_cons.mp hp with rfl | hp
        · intro hmem
          rcases List.mem_cons.mp hmem with hcomma | hmem
          · exact hc hcomma.symm
          · exact ih List.mem_cons_self hmem
        · exact ih (List.mem_cons_of_mem q hp)

theorem divides_iff {parts : List (List Char)} {cs : List Char} :
    Divides parts cs ↔ parts = commaParts cs := by
  constructor
  · rintro ⟨hne, hnot, rfl⟩
    rw [commaParts_eq_splitOn, List.splitOn_intercalate ',' hnot hne]
  · rintro rfl
    exact ⟨commaParts_ne_nil cs, fun p hp => notMem_of_mem_commaParts hp, intercalate_commaParts cs⟩

/-- `q` is `p` without the white space at both ends. -/
structure Trims (p q : List Char) : Prop where
  around : ∃ l r, p = l ++ (q ++ r) ∧ (∀ c ∈ l, isBlank c = true) ∧ ∀ c ∈ r, isBlank c = true
  first : Breaks isBlank q
  last : Breaks isBlank q.reverse

theorem dropWhile_append_of_breaks {p : Char → Bool} {u s : List Char} (hu : ∀ c ∈ u, p c = true)
    (hs : Breaks p s) : (u ++ s).dropWhile p = s := by
  rw [List.dropWhile_append_of_pos hu]
  cases s with
  | nil => rfl
  | cons c s => exact List.dropWhile_cons_of_neg (by rw [hs c rfl]; exact Bool.false_ne_true)

theorem breaks_dropWhile (p : Char → Bool) (s : List Char) : Breaks p (s.dropWhile p) := by
  intro c hc
  have hhead := List.head?_dropWhile_not p s
  rw [hc] at hhead
  exact hhead

theorem trims_trim (p : List Char) : Trims p (trim p) := by
  -- what is left when the white space in front is gone ends with the white space at the end
  have hback : p.dropWhile isBlank =
      trim p ++ ((p.dropWhile isBlank).reverse.takeWhile isBlank).reverse := by
    rw [trim, ← List.reverse_append, List.takeWhile_append_dropWhile, List.reverse_reverse]
  refine ⟨⟨p.takeWhile isBlank, ((p.dropWhile isBlank).reverse.takeWhile isBlank).reverse, ?_,
    fun c hc => ?_, fun c hc => ?_⟩, fun c hc => ?_, ?_⟩
  · rw [← hback, List.takeWhile_append_dropWhile]
  · exact List.mem_takeWhile_imp hc
  · exact List.mem_takeWhile_imp (List.mem_reverse.mp hc)
  · refine breaks_dropWhile isBlank p c ?_
    rw [hback, List.head?_append, hc]
    rfl
  · rw [trim, List.reverse_reverse]
    exact breaks_dropWhile isBlank _

theorem trims_iff {p q : List Char} : Trims p q ↔ q = trim p := by
  constructor
  · rintro ⟨⟨l, r, rfl, hl, hr⟩, hfirst, hlast⟩
    have hr' : ∀ c ∈ r.reverse, isBlank c = true := fun c hc => hr c (List.mem_reverse.mp hc)
    cases q with
    | nil =>
      have hall : ∀ c ∈ l ++ r, isBlank c = true := fun c hc =>
        (List.mem_append.mp hc).elim (hl c) (hr c)
      rw [trim, List.nil_append, List.dropWhile_eq_nil_iff.mpr hall]
      rfl
    | cons c q =>
      have hfront : Breaks isBlank (c :: q ++ r) := breaks_cons (hfirst c rfl)
      rw [trim, dropWhile_append_of_breaks hl hfront, List.reverse_append,
        dropWhile_append_of_breaks hr' hlast, List.reverse_reverse]
  · rintro rfl
    exact trims_trim p

/-- The names in a text, in order: its parts without the white space around them, as far as
anything is left. -/
def Segmented (text : String) (names : List String) : Prop :=
  ∃ parts trimmed, Divides parts text.toList ∧ List.Forall₂ Trims parts trimmed ∧
    names = (trimmed.filter (· ≠ [])).map String.ofList

theorem segmented_iff {text : String} {names : List String} :
    Segmented text names ↔ names = segments text := by
  have hfilter : ∀ ps : List (List Char),
      ps.filter (fun p => !p.isEmpty) = ps.filter fun p => decide (p ≠ []) := by
    intro ps
    refine List.filter_congr fun p _ => ?_
    cases p <;> rfl
  constructor
  · rintro ⟨parts, trimmed, hparts, htrimmed, rfl⟩
    obtain rfl := divides_iff.mp hparts
    have hmap : trimmed = (commaParts text.toList).map trim := by
      rw [← List.forall₂_eq_eq_eq, List.forall₂_map_right_iff]
      exact htrimmed.flip.imp fun q p h => trims_iff.mp h
    rw [segments, hfilter, hmap]
  · rintro rfl
    refine ⟨commaParts text.toList, (commaParts text.toList).map trim, divides_iff.mpr rfl,
      List.forall₂_map_right_iff.mpr (List.forall₂_same.mpr fun p _ => trims_trim p), ?_⟩
    rw [segments, hfilter]

end ShaderIR.Text
