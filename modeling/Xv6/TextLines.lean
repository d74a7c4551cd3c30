import Mathlib.Tactic

/-!
# Lines of a text

`Cut sep w ls r` says that the text `w` consists of the lines `ls`, each ended by `sep`, and an unfinished line
`r`.  Every text has exactly one cut, and the cut of a longer text goes on from that of a shorter one.
-/

namespace Xv6.TextLines

variable {α : Type*} {sep : α} {w : List α}

/-- `w` consists of the lines `ls`, each with `sep` behind it, and the unfinished line `r`. -/
structure Cut (sep : α) (w : List α) (ls : List (List α)) (r : List α) : Prop where
  eq : w = (ls.flatMap fun l => l ++ [sep]) ++ r
  lines : ∀ l ∈ ls, sep ∉ l
  rest : sep ∉ r

theorem exists_cut (sep : α) (w : List α) : ∃ ls r, Cut sep w ls r := by
  induction w with
  | nil => exact ⟨[], [], rfl, fun l hl => absurd hl List.not_mem_nil, List.not_mem_nil⟩
  | cons c w ih =>
    obtain ⟨ls, r, h⟩ := ih
    by_cases hc : c = sep
    · refine ⟨[] :: ls, r, by rw [hc, h.eq]; rfl, fun l hl => ?_, h.rest⟩
      rcases List.mem_cons.mp hl with rfl | hl
      · exact List.not_mem_nil
      · exact h.lines l hl
    · cases ls with
      | nil =>
        refine ⟨[], c :: r, by rw [h.eq]; rfl, h.lines, fun hmem => ?_⟩
        rcases List.mem_cons.mp hmem with he | hmem
        · exact hc he.symm
        · exact h.rest hmem
      | cons l ls =>
        refine ⟨(c :: l) :: ls, r, by rw [h.eq]; rfl, fun l' hl => ?_, h.rest⟩
        rcases List.mem_cons.mp hl with rfl | hl
        · intro hmem
          rcases List.mem_cons.mp hmem with he | hmem
          · exact hc he.symm
          · exact h.lines l List.mem_cons_self hmem
        · exact h.lines l' (List.mem_cons_of_mem _ hl)

theorem append_sep_inj {l l' u v : List α} (hl : sep ∉ l) (hl' : sep ∉ l') (h : l ++ sep :: u = l' ++ sep :: v) :
    l = l' ∧ u = v := by
  induction l generalizing l' with
  | nil =>
    cases l' with
    | nil => exact ⟨rfl, (List.cons.inj h).2⟩
    | cons c l' => exact absurd (show sep ∈ c :: l' from (List.cons.inj h).1 ▸ List.mem_cons_self) hl'
  | cons c l ih =>
    cases l' with
    | nil => exact absurd (show sep ∈ c :: l from (List.cons.inj h).1 ▸ List.mem_cons_self) hl
    | cons d l' =>
      obtain ⟨hcd, hrest⟩ := List.cons.inj h
      obtain ⟨hll, huv⟩ := ih (fun hm => hl (List.mem_cons_of_mem _ hm))
        (fun hm => hl' (List.mem_cons_of_mem _ hm)) hrest
      exact ⟨by rw [hcd, hll], huv⟩

theorem Cut.unique {w r r' : List α} {ls ls' : List (List α)} (h : Cut sep w ls r) (h' : Cut sep w ls' r') :
    ls = ls' ∧ r = r' := by
  have heq := h.eq.symm.trans h'.eq
  have hls := h.lines
  have hls' := h'.lines
  have hr := h.rest
  have hr' := h'.rest
  clear h h'
  induction ls generalizing ls' with
  | nil =>
    cases ls' with
    | nil => exact ⟨rfl, heq⟩
    | cons l ls' =>
      rw [List.flatMap_nil, List.nil_append] at heq
      exact absurd (by rw [heq]; simp) hr
  | cons l ls ih =>
    cases ls' with
    | nil =>
      rw [List.flatMap_nil, List.nil_append] at heq
      exact absurd (by rw [← heq]; simp) hr'
    | cons l' ls' =>
      rw [List.flatMap_cons, List.flatMap_cons, List.append_assoc, List.append_assoc, List.append_assoc,
        List.append_assoc] at heq
      obtain ⟨hl, hrest⟩ := append_sep_inj (hls l List.mem_cons_self) (hls' l' List.mem_cons_self) heq
      obtain ⟨hlls, hrr⟩ := ih hrest (fun x hx => hls x (List.mem_cons_of_mem _ hx))
        (fun x hx => hls' x (List.mem_cons_of_mem _ hx))
      exact ⟨by rw [hl, hlls], hrr⟩

theorem Cut.uncons {l r : List α} {ls : List (List α)} (h : Cut sep w (l :: ls) r) :
    ∃ v, w = l ++ sep :: v ∧ Cut sep v ls r := by
  refine ⟨(ls.flatMap fun l => l ++ [sep]) ++ r, ?_, rfl, fun x hx => h.lines x (List.mem_cons_of_mem _ hx), h.rest⟩
  rw [h.eq, List.flatMap_cons, List.append_assoc, List.append_assoc, List.singleton_append]

theorem Cut.more {w r y : List α} {ls ls' : List (List α)} {r' : List α} (h : Cut sep w ls r)
    (h' : Cut sep (r ++ y) ls' r') : Cut sep (w ++ y) (ls ++ ls') r' := by
  refine ⟨?_, fun l hl => ?_, h'.rest⟩
  · rw [h.eq, List.append_assoc, h'.eq, List.flatMap_append, List.append_assoc]
  · rcases List.mem_append.mp hl with hl | hl
    · exact h.lines l hl
    · exact h'.lines l hl

/-- The unfinished line of a text is the beginning of a line, or of the unfinished line, of any longer one. -/
theorem Cut.rest_le {x y r r' : List α} {ls ls' : List (List α)} {b : ℕ} (h : Cut sep x ls r)
    (h' : Cut sep (x ++ y) ls' r') (hls : ∀ l ∈ ls', l.length ≤ b) (hr : r'.length ≤ b) : r.length ≤ b := by
  obtain ⟨ks, t, hy⟩ := exists_cut sep y
  cases ks with
  | nil =>
    have hcut : Cut sep (r ++ y) [] (r ++ y) := by
      refine ⟨rfl, fun l hl => absurd hl List.not_mem_nil, fun hmem => ?_⟩
      rcases List.mem_append.mp hmem with hmem | hmem
      · exact h.rest hmem
      · rw [hy.eq] at hmem
        exact hy.rest hmem
    have hrest := ((h.more hcut).unique h').2
    rw [← hrest, List.length_append] at hr
    omega
  | cons k ks =>
    have hcut : Cut sep (r ++ y) ((r ++ k) :: ks) t := by
      refine ⟨?_, fun l hl => ?_, hy.rest⟩
      · rw [hy.eq, List.flatMap_cons, List.flatMap_cons]
        simp only [List.append_assoc]
      · rcases List.mem_cons.mp hl with rfl | hl
        · intro hmem
          rcases List.mem_append.mp hmem with hmem | hmem
          · exact h.rest hmem
          · exact hy.lines k List.mem_cons_self hmem
        · exact hy.lines l (List.mem_cons_of_mem _ hl)
    have hlines := ((h.more hcut).unique h').1
    have hle := hls (r ++ k) (by rw [← hlines]; simp)
    rw [List.length_append] at hle
    omega

theorem Cut.length_le {ls : List (List α)} {r : List α} (h : Cut sep w ls r) : ls.length ≤ w.length := by
  rw [h.eq, List.length_append, List.length_flatMap]
  have hle := List.length_le_sum_of_one_le (ls.map fun l => (l ++ [sep]).length) (by
    intro i hi
    obtain ⟨l, -, rfl⟩ := List.mem_map.mp hi
    rw [List.length_append, List.length_singleton]
    omega)
  rw [List.length_map] at hle
  omega

end Xv6.TextLines
