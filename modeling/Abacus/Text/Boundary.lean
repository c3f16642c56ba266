/-!
Where a text ends that stands in front of another. If its characters are of some class, and the one
after it is not, then the two texts can be told apart.
-/
namespace Abacus.Text

variable {p : Char → Bool} {front front' rest rest' : List Char}

theorem takeWhile_append_of_ends (hfront : ∀ c ∈ front, p c)
    (hrest : ∀ c ∈ rest.head?, p c = false) : (front ++ rest).takeWhile p = front := by
  rw [List.takeWhile_append_of_pos hfront]
  cases rest with
  | nil => simp
  | cons c rest => simp [hrest c (by simp)]

/-- What is put together from a text of some class and a text that ends it can be taken apart in
one way only. -/
theorem append_inj_of_ends (hfront : ∀ c ∈ front, p c) (hfront' : ∀ c ∈ front', p c)
    (hrest : ∀ c ∈ rest.head?, p c = false) (hrest' : ∀ c ∈ rest'.head?, p c = false)
    (h : front ++ rest = front' ++ rest') : front = front' ∧ rest = rest' := by
  have hsame : front = front' := by
    rw [← takeWhile_append_of_ends hfront hrest, h, takeWhile_append_of_ends hfront' hrest']
  refine ⟨hsame, ?_⟩
  rw [hsame] at h
  exact List.append_cancel_left h

end Abacus.Text
