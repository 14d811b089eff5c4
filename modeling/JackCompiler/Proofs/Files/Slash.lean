import JackCompiler.Proofs.Files.Parent

/-!
# Slashes behind the path of a directory

Slashes at the end of a path to a directory lead nowhere else (`find_slashed`), but each of them
takes a byte of the path (`utf8ByteSize_slashed`), and of every path below it
(`utf8ByteSize_join_slashed`).
-/

set_option autoImplicit false

namespace JackCompiler

open FileTree

/-- The path of a directory `s` with so many slashes behind the name. -/
def slashed (count : Nat) : Path := ⟨"s" ++ String.ofList (List.replicate count '/')⟩

variable {count : Nat} {name : String}

theorem toList_slashed (count : Nat) :
    (slashed count).text.toList = 's' :: List.replicate count '/' := by
  simp [slashed]

theorem utf8ByteSize_slashed (count : Nat) : (slashed count).text.utf8ByteSize = count + 1 := by
  have slashes : (String.ofList (List.replicate count '/')).utf8ByteSize = count := by
    induction count with
    | zero => rfl
    | succ count ih =>
      rw [List.replicate_succ, String.ofList_cons, String.utf8ByteSize_append, ih,
        String.utf8ByteSize_singleton, Nat.add_comm]
      rfl
  rw [slashed, String.utf8ByteSize_append, slashes, Nat.add_comm]
  rfl

theorem pieces_slashed (count : Nat) : (slashed count).pieces = "s" :: List.replicate count "" := by
  have slashes : splitAtSlashes (List.replicate count '/') = [] :: List.replicate count [] := by
    induction count with
    | zero => rfl
    | succ count ih => rw [List.replicate_succ, splitAtSlashes, if_pos rfl, ih, List.replicate_succ]
  rw [Path.pieces, toList_slashed, splitAtSlashes, if_neg (by decide), slashes]
  simp

theorem location_slashed (count : Nat) : (slashed count).location = ["s"] := by
  rw [Path.location, pieces_slashed, List.foldl_cons]
  exact foldl_namesBehind_of_empty (fun _ among => List.eq_of_mem_replicate among) _

/-- Slashes behind the path of a directory lead nowhere else. -/
theorem find_slashed {entries inner : List (String × FileTree)} (short : count < maxPathBytes)
    (present : entries.lookup "s" = some (directory inner)) :
    (directory entries).find (slashed count) = .ok (directory inner) := by
  have stays (place : Place) (isDirectory : place.here = directory inner) :
      place.follow (List.replicate count "") = .ok place := by
    induction count with
    | zero => rfl
    | succ count ih =>
      rw [List.replicate_succ, Place.follow, isDirectory]
      exact ih (Nat.lt_of_succ_lt short)
  have admitted : (slashed count).admitted = .ok (slashed count).pieces := by
    have plain : (slashed count).text.toList.contains '\x00' = false := by
      rw [toList_slashed]
      simp
    have nonempty : (slashed count).text ≠ "" := fun empty => by
      have none := toList_slashed count
      rw [empty] at none
      cases none
    have fits : (slashed count).isTooLong = false := by
      simp only [Path.isTooLong, utf8ByteSize_slashed, decide_eq_false_iff_not]
      omega
    rw [Path.admitted, plain, fits, if_neg Bool.false_ne_true, if_neg nonempty,
      if_neg Bool.false_ne_true]
  refine except_bind_eq_ok.mpr ⟨_, admitted, ?_⟩
  rw [pieces_slashed]
  let place : Place := ⟨[("s", directory entries)], directory inner⟩
  have leads : Place.follow ⟨[], directory entries⟩ ("s" :: List.replicate count "") =
      .ok place := by
    refine Place.follow_cons_eq_ok.mpr ⟨entries, rfl, place, stays place rfl, ?_⟩
    rw [if_neg (by decide), if_neg (by decide)]
    exact Place.entry_eq_ok.mpr ⟨by decide, _, present, rfl⟩
  exact except_bind_eq_ok.mpr ⟨place, leads, rfl⟩

theorem utf8ByteSize_join_slashed (relative : Path.isAbsolute ⟨name⟩ = false) :
    ((slashed (count + 1)).join ⟨name⟩).text.utf8ByteSize = count + 2 + name.utf8ByteSize := by
  have ends : (slashed (count + 1)).text.toList.getLast? = some '/' := by
    rw [toList_slashed, List.replicate_succ', ← List.cons_append, List.getLast?_concat]
  rw [Path.join, if_neg (by simp [relative]), if_pos (.inr ends), String.utf8ByteSize_append,
    utf8ByteSize_slashed]

end JackCompiler
