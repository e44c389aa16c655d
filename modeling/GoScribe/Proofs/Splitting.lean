import GoScribe.Text.Split
import Mathlib.Data.List.Basic

/-!
# Pieces of a text

The pieces between separators: none holds a separator, and those of texts that are joined by separators are
the pieces of each.
-/

namespace GoScribe.Text

/-! ## At every separator -/

theorem splitOn_sep (sep : Char) (cs : List Char) : splitOn sep (sep :: cs) = [] :: splitOn sep cs := by
  rw [splitOn, if_pos rfl]

/-- A character that is no separator belongs to the first piece. -/
theorem splitOn_cons {sep c : Char} (hc : c ≠ sep) {cs p : List Char} {ps : List (List Char)}
    (h : splitOn sep cs = p :: ps) : splitOn sep (c :: cs) = (c :: p) :: ps := by
  rw [splitOn, if_neg hc, h]

/-- There is always a first piece. -/
theorem exists_splitOn_eq_cons (sep : Char) (cs : List Char) : ∃ p ps, splitOn sep cs = p :: ps := by
  induction cs with
  | nil => exact ⟨[], [], rfl⟩
  | cons c cs ih =>
    by_cases hc : c = sep
    · exact ⟨[], splitOn sep cs, hc ▸ splitOn_sep sep cs⟩
    · obtain ⟨p, ps, h⟩ := ih
      exact ⟨c :: p, ps, splitOn_cons hc h⟩

/-- No separator is left in a piece. -/
theorem not_mem_of_mem_splitOn {sep : Char} {cs p : List Char} (hp : p ∈ splitOn sep cs) : sep ∉ p := by
  induction cs generalizing p with
  | nil =>
    rw [List.mem_singleton.mp hp]
    exact List.not_mem_nil
  | cons c cs ih =>
    by_cases hc : c = sep
    · rw [hc, splitOn_sep] at hp
      rcases List.mem_cons.mp hp with rfl | hp
      · exact List.not_mem_nil
      · exact ih hp
    · obtain ⟨q, qs, h⟩ := exists_splitOn_eq_cons sep cs
      rw [splitOn_cons hc h] at hp
      rcases List.mem_cons.mp hp with rfl | hp
      · have hq : sep ∉ q := ih (h ▸ List.mem_cons_self)
        rw [List.mem_cons, not_or]
        exact ⟨fun heq => hc heq.symm, hq⟩
      · exact ih (h ▸ List.mem_cons_of_mem _ hp)

/-- A piece is a part of the text. -/
theorem sublist_of_mem_splitOn {sep : Char} {cs p : List Char} (hp : p ∈ splitOn sep cs) :
    p.Sublist cs := by
  induction cs generalizing p with
  | nil => rw [List.mem_singleton.mp hp]
  | cons c cs ih =>
    by_cases hc : c = sep
    · rw [hc, splitOn_sep] at hp
      rcases List.mem_cons.mp hp with rfl | hp
      · exact List.nil_sublist _
      · exact (ih hp).cons _
    · obtain ⟨q, qs, h⟩ := exists_splitOn_eq_cons sep cs
      rw [splitOn_cons hc h] at hp
      rcases List.mem_cons.mp hp with rfl | hp
      · exact (ih (h ▸ List.mem_cons_self)).cons_cons _
      · exact (ih (h ▸ List.mem_cons_of_mem _ hp)).cons _

/-- Every other character stands in a piece. -/
theorem exists_mem_splitOn {sep c : Char} (hc : c ≠ sep) {cs : List Char} (h : c ∈ cs) :
    ∃ p ∈ splitOn sep cs, c ∈ p := by
  induction cs with
  | nil => cases h
  | cons d cs ih =>
    by_cases hd : d = sep
    · have hmem : c ∈ cs := (List.mem_cons.mp h).resolve_left fun heq => hc (heq.trans hd)
      obtain ⟨p, hp, hcp⟩ := ih hmem
      refine ⟨p, ?_, hcp⟩
      rw [hd, splitOn_sep]
      exact List.mem_cons_of_mem _ hp
    · obtain ⟨q, qs, hsplit⟩ := exists_splitOn_eq_cons sep cs
      rw [splitOn_cons hd hsplit]
      rcases List.mem_cons.mp h with rfl | hmem
      · exact ⟨c :: q, List.mem_cons_self, List.mem_cons_self⟩
      · obtain ⟨p, hp, hcp⟩ := ih hmem
        rw [hsplit] at hp
        rcases List.mem_cons.mp hp with rfl | hp
        · exact ⟨d :: p, List.mem_cons_self, List.mem_cons_of_mem _ hcp⟩
        · exact ⟨p, List.mem_cons_of_mem _ hp, hcp⟩

/-- The pieces of two texts with a separator between them. -/
theorem splitOn_append (sep : Char) (cs ds : List Char) :
    splitOn sep (cs ++ sep :: ds) = splitOn sep cs ++ splitOn sep ds := by
  induction cs with
  | nil => exact splitOn_sep sep ds
  | cons c cs ih =>
    by_cases hc : c = sep
    · rw [hc, List.cons_append, splitOn_sep, splitOn_sep, ih, List.cons_append]
    · obtain ⟨p, ps, h⟩ := exists_splitOn_eq_cons sep cs
      rw [h, List.cons_append] at ih
      rw [List.cons_append, splitOn_cons hc ih, splitOn_cons hc h, List.cons_append]

/-- A text without separators is one piece. -/
theorem splitOn_of_not_mem {sep : Char} {cs : List Char} (h : sep ∉ cs) : splitOn sep cs = [cs] := by
  induction cs with
  | nil => rfl
  | cons c cs ih =>
    rw [List.mem_cons, not_or] at h
    exact splitOn_cons (Ne.symm h.1) (ih h.2)

/-- Texts without separators, each with one behind it, are the first pieces. -/
theorem splitOn_flatMap {sep : Char} {css : List (List Char)} (h : ∀ cs ∈ css, sep ∉ cs) (rest : List Char) :
    splitOn sep (css.flatMap (· ++ [sep]) ++ rest) = css ++ splitOn sep rest := by
  induction css with
  | nil => rfl
  | cons cs css ih =>
    rw [List.forall_mem_cons] at h
    rw [List.flatMap_cons, List.append_assoc, List.append_assoc, List.singleton_append, splitOn_append,
      splitOn_of_not_mem h.1, ih h.2]
    rfl

/-- The pieces of texts that are joined by separators. -/
theorem splitOn_joinWith (sep : Char) {css : List (List Char)} (hne : css ≠ []) :
    splitOn sep (joinWith [sep] css) = css.flatMap (splitOn sep) := by
  induction css with
  | nil => exact absurd rfl hne
  | cons cs rest ih =>
    cases rest with
    | nil => exact (List.append_nil _).symm
    | cons ds rest =>
      rw [joinWith, List.append_assoc, List.singleton_append, splitOn_append,
        ih (List.cons_ne_nil _ _)]
      rfl

/-- Texts without separators are the pieces of what they are joined to. -/
theorem splitOn_joinWith_of_not_mem {sep : Char} {css : List (List Char)} (hne : css ≠ [])
    (h : ∀ cs ∈ css, sep ∉ cs) : splitOn sep (joinWith [sep] css) = css := by
  rw [splitOn_joinWith sep hne]
  clear hne
  induction css with
  | nil => rfl
  | cons cs css ih =>
    rw [List.forall_mem_cons] at h
    rw [List.flatMap_cons, splitOn_of_not_mem h.1, ih h.2]
    rfl

/-- Joined again, the pieces are the text. -/
theorem joinWith_splitOn (sep : Char) (cs : List Char) : joinWith [sep] (splitOn sep cs) = cs := by
  induction cs with
  | nil => rfl
  | cons c cs ih =>
    obtain ⟨p, ps, h⟩ := exists_splitOn_eq_cons sep cs
    rw [h] at ih
    by_cases hc : c = sep
    · rw [hc, splitOn_sep, h, joinWith, ih]
      rfl
    · rw [splitOn_cons hc h]
      cases ps with
      | nil => exact congrArg (c :: ·) ih
      | cons q ps => exact congrArg (c :: ·) ih

/-- What is joined by separators: all but the last with one behind it. -/
theorem joinWith_concat {α : Type} (sep : List α) (xs : List (List α)) (y : List α) :
    joinWith sep (xs ++ [y]) = xs.flatMap (· ++ sep) ++ y := by
  induction xs with
  | nil => rfl
  | cons x xs ih =>
    rw [List.flatMap_cons, List.append_assoc, ← ih]
    cases xs <;> rfl

/-! ## At the last separator -/

/-- What stands before and behind the last separator. -/
theorem splitLast?_eq_some {sep : Char} {cs before after : List Char}
    (h : splitLast? sep cs = some (before, after)) : cs = before ++ sep :: after := by
  induction cs generalizing before with
  | nil => cases h
  | cons c cs ih =>
    rw [splitLast?] at h
    split at h
    · next b a hsplit =>
      cases h
      rw [ih hsplit, List.cons_append]
    · split at h
      · next hc =>
        cases h
        rw [hc, List.nil_append]
      · cases h

theorem not_mem_of_splitLast?_eq_none {sep : Char} {cs : List Char} (h : splitLast? sep cs = none) :
    sep ∉ cs := by
  induction cs with
  | nil => exact List.not_mem_nil
  | cons c cs ih =>
    rw [splitLast?] at h
    split at h
    · cases h
    · next hcs =>
      split at h
      · cases h
      · next hc =>
        rw [List.mem_cons, not_or]
        exact ⟨fun heq => hc heq.symm, ih hcs⟩

/-- There is no separator behind the last one. -/
theorem not_mem_of_splitLast?_eq_some {sep : Char} {cs before after : List Char}
    (h : splitLast? sep cs = some (before, after)) : sep ∉ after := by
  induction cs generalizing before with
  | nil => cases h
  | cons c cs ih =>
    rw [splitLast?] at h
    split at h
    · next b a hsplit =>
      cases h
      exact ih hsplit
    · next hcs =>
      split at h
      · cases h
        exact not_mem_of_splitLast?_eq_none hcs
      · cases h

theorem splitLast?_of_not_mem {sep : Char} {cs : List Char} (h : sep ∉ cs) : splitLast? sep cs = none := by
  cases hsplit : splitLast? sep cs with
  | none => rfl
  | some parts =>
    rw [splitLast?_eq_some hsplit] at h
    exact absurd (List.mem_append_right _ List.mem_cons_self) h

/-- A separator with none behind it is the last one. -/
theorem splitLast?_append_cons {sep : Char} (before : List Char) {after : List Char} (h : sep ∉ after) :
    splitLast? sep (before ++ sep :: after) = some (before, after) := by
  induction before with
  | nil => rw [List.nil_append, splitLast?, splitLast?_of_not_mem h, if_pos rfl]
  | cons c before ih => rw [List.cons_append, splitLast?, ih]

/-- The text behind the last separator is the last piece, and a text without separators is added to it. -/
theorem exists_splitOn_append (sep : Char) (cs : List Char) :
    ∃ pieces, ∀ ds, sep ∉ ds → splitOn sep (cs ++ ds) = pieces ++ [afterLast sep cs ++ ds] := by
  unfold afterLast
  cases hsplit : splitLast? sep cs with
  | none =>
    refine ⟨[], fun ds hds => splitOn_of_not_mem ?_⟩
    rw [List.mem_append, not_or]
    exact ⟨not_mem_of_splitLast?_eq_none hsplit, hds⟩
  | some parts =>
    obtain ⟨before, after⟩ := parts
    refine ⟨splitOn sep before, fun ds hds => ?_⟩
    have hafter : sep ∉ after ++ ds := by
      rw [List.mem_append, not_or]
      exact ⟨not_mem_of_splitLast?_eq_some hsplit, hds⟩
    rw [splitLast?_eq_some hsplit, List.append_assoc, List.cons_append, splitOn_append,
      splitOn_of_not_mem hafter]

theorem afterLast_mem_splitOn (sep : Char) (cs : List Char) : afterLast sep cs ∈ splitOn sep cs := by
  obtain ⟨pieces, h⟩ := exists_splitOn_append sep cs
  have hcs := h [] List.not_mem_nil
  rw [List.append_nil, List.append_nil] at hcs
  rw [hcs]
  exact List.mem_append_right _ List.mem_cons_self

end GoScribe.Text
