import JackCompiler.Proofs.Files.Stem

/-!
# The order of paths

Steps are ordered linearly, and so are lists of steps. Paths each of which comes before the other
have the same steps, so they lead to the same place (`Path.location_eq_of_le`). Hence things with
paths to different places stand in one order only: sorting them by their paths forgets how they
stood before (`mergeSort_eq_of_mem_iff`).
-/

set_option autoImplicit false

namespace JackCompiler

namespace Component

variable {a b c : Component} {as bs cs : List Component}

theorem le_total (a b : Component) : a.le b = true ∨ b.le a = true := by
  cases a <;> cases b <;> simp [le, String.le_total]

theorem le_trans (one : a.le b = true) (two : b.le c = true) : a.le c = true := by
  cases a <;> cases b <;> cases c <;> simp only [le, reduceCtorEq, decide_eq_true_eq] at one two ⊢
  exact String.le_trans one two

theorem le_antisymm (one : a.le b = true) (two : b.le a = true) : a = b := by
  cases a <;> cases b <;> simp only [le, reduceCtorEq, decide_eq_true_eq] at one two ⊢
  exact congrArg normal (String.le_antisymm one two)

/-- The first steps decide, if they differ. -/
theorem listLe_cons : listLe (a :: as) (b :: bs) = true ↔
    a = b ∧ listLe as bs = true ∨ a ≠ b ∧ a.le b = true := by
  rw [listLe]
  split <;> simp [*]

theorem listLe_total (as bs : List Component) : listLe as bs = true ∨ listLe bs as = true := by
  induction as generalizing bs with
  | nil => exact .inl rfl
  | cons a as ih =>
    cases bs with
    | nil => exact .inr rfl
    | cons b bs =>
      rw [listLe_cons, listLe_cons]
      by_cases same : a = b
      · simpa [same] using ih bs
      · simpa [same, Ne.symm same] using le_total a b

theorem listLe_trans (one : listLe as bs = true) (two : listLe bs cs = true) :
    listLe as cs = true := by
  induction as generalizing bs cs with
  | nil => rfl
  | cons a as ih =>
    cases bs with
    | nil => cases one
    | cons b bs =>
      cases cs with
      | nil => cases two
      | cons c cs =>
        rw [listLe_cons] at one two ⊢
        rcases one with ⟨rfl, one⟩ | ⟨unequal, one⟩ <;> rcases two with ⟨rfl, two⟩ | ⟨unequal', two⟩
        · exact .inl ⟨rfl, ih one two⟩
        · exact .inr ⟨unequal', two⟩
        · exact .inr ⟨unequal, one⟩
        · refine .inr ⟨?_, le_trans one two⟩
          rintro rfl
          exact unequal (le_antisymm one two)

theorem listLe_antisymm (one : listLe as bs = true) (two : listLe bs as = true) : as = bs := by
  induction as generalizing bs with
  | nil =>
    cases bs with
    | nil => rfl
    | cons b bs => cases two
  | cons a as ih =>
    cases bs with
    | nil => cases one
    | cons b bs =>
      rw [listLe_cons] at one two
      rcases one with ⟨rfl, one⟩ | ⟨unequal, one⟩
      · rcases two with ⟨-, two⟩ | ⟨unequal, -⟩
        · rw [ih one two]
        · exact absurd rfl unequal
      · rcases two with ⟨rfl, -⟩ | ⟨-, two⟩
        · exact absurd rfl unequal
        · exact absurd (le_antisymm one two) unequal

end Component

namespace Path

variable {one two three : Path}

theorem le_total (one two : Path) : one.le two = true ∨ two.le one = true :=
  Component.listLe_total _ _

theorem le_trans (first : one.le two = true) (second : two.le three = true) :
    one.le three = true := Component.listLe_trans first second

/-- Paths that come before each other lead to the same place. -/
theorem location_eq_of_le (first : one.le two = true) (second : two.le one = true) :
    one.location = two.location := by
  rw [location_eq_foldl_components, location_eq_foldl_components]
  exact congrArg _ (Component.listLe_antisymm first second)

end Path

/-! ## Things in the order of their paths -/

section Sorting

variable {α : Type} {path : α → Path} {these those : List α}

/-- Of sorted things with paths to different places, each comes strictly before the next ones. -/
theorem pairwise_mergeSort_path
    (apart : these.Pairwise fun one two => (path one).location ≠ (path two).location) :
    (these.mergeSort fun one two => (path one).le (path two)).Pairwise fun one two =>
      (path one).le (path two) = true ∧ (path one).location ≠ (path two).location := by
  have sorted := @List.pairwise_mergeSort α (fun one two => (path one).le (path two))
    (fun _ _ _ => Path.le_trans) (fun one two => by simpa using Path.le_total (path one) (path two))
    these
  have apart := ((List.mergeSort_perm these fun one two => (path one).le (path two)).pairwise_iff
    fun unequal => unequal.symm).mpr apart
  exact sorted.and apart

/-- Things with paths to different places are sorted in one way only. -/
theorem mergeSort_eq_of_mem_iff
    (apart : these.Pairwise fun one two => (path one).location ≠ (path two).location)
    (apart' : those.Pairwise fun one two => (path one).location ≠ (path two).location)
    (same : ∀ thing, thing ∈ these ↔ thing ∈ those) :
    (these.mergeSort fun one two => (path one).le (path two)) =
      those.mergeSort fun one two => (path one).le (path two) := by
  have distinct {things : List α}
      (apart : things.Pairwise fun one two => (path one).location ≠ (path two).location) :
      things.Nodup := apart.imp fun unequal equal => unequal (congrArg _ (congrArg path equal))
  have perm : these.Perm those :=
    (List.perm_ext_iff_of_nodup (distinct apart) (distinct apart')).mpr same
  refine List.Perm.eq_of_pairwise (fun one two _ _ first second => ?_)
    (pairwise_mergeSort_path apart) (pairwise_mergeSort_path apart')
    (((List.mergeSort_perm _ _).trans perm).trans (List.mergeSort_perm _ _).symm)
  exact absurd (Path.location_eq_of_le first.1 second.1) first.2

end Sorting

end JackCompiler
