import Inlay.Proofs.Host.Partition

/-!
Fragments between boundaries. Such a fragment ends with a `>`, and the boundary behind it is not
empty and does not belong to it; so the fragment by itself is never found again as a whole.
-/

namespace Inlay

theorem Strategy.find_pattern {before marks : List Mark} {found : Found}
    (searched : (Strategy.pattern.find before marks).found = some found) :
    (∃ front m, found.body = front ++ [m] ∧ m.char = '>') ∧ found.used ≠ [] := by
  unfold find at searched
  dsimp only at searched
  split at searched
  · cases searched
  · rename_i body ends outcome
    cases searched
    have inside := Boundary.search_inside outcome
    obtain ⟨⟨front, m, shape, closes⟩, ⟨used, resume⟩, shorter⟩ :=
      inside.behind.trans (List.tail_suffix _)
    dsimp only at shape shorter resume ⊢
    refine ⟨⟨front, m, ?_, closes⟩, ?_⟩
    · rw [shape, List.append_cons, Mark.upTo_append]
    · rw [← resume, Mark.upTo_append]
      rintro rfl
      rw [← resume, List.nil_append] at shorter
      exact Nat.lt_irrefl _ shorter

namespace Locator

theorem all_pattern {text : Bytes} {f : Fragment} (member : f ∈ (ofText text .pattern).all.1) :
    f.text.getLast? = some 62 ∧ f.after ≠ [] := by
  rw [(all_yields _).1, yields_ofText] at member
  obtain ⟨found, listed, between, body, after⟩ := mem_pieces_after member
  obtain ⟨earlier, marks, suffix, searched⟩ := Strategy.mem_founds listed
  obtain ⟨⟨front, m, shape, closes⟩, used⟩ := Strategy.find_pattern searched
  have parts := Strategy.find_parts searched
  have inside : ∀ n ∈ found.body ++ found.used, n ∈ Mark.read text := by
    intro n member
    refine suffix.subset ?_
    rw [← parts.whole]
    simp only [List.mem_append] at member ⊢
    rcases member with body | used
    · exact .inr (.inl body)
    · exact .inr (.inr (.inl used))
  refine ⟨?_, ?_⟩
  · have bytes := Mark.encode_of_ascii (inside m (by simp [shape])) (by rw [closes]; decide)
    rw [body, shape, Mark.text_append, List.getLast?_append]
    simp only [Mark.text, List.flatMap_singleton, bytes, closes]
    rfl
  · obtain ⟨n, more, shape⟩ := List.exists_cons_of_ne_nil used
    have bytes := Mark.read_bytes_ne_nil text n (inside n (by simp [shape]))
    rw [after, shape, Mark.text, List.cons_append, List.flatMap_cons]
    simp [bytes]

end Locator

end Inlay
