import Mathlib.Tactic.Common
import Mathlib.Data.List.Basic

/-!
Null-terminated linked lists.

`next` follows one link and may fail. `Chain next null a l` says that the
links from `a` lead through exactly the cells of `l` and then to `null`.
Such a list is finite and has no cycle.
-/

namespace LinkedList

variable {α : Type} {next : α → Option α} {null : α}

inductive Chain (next : α → Option α) (null : α) : α → List α → Prop
  | nil : Chain next null null []
  | cons {a b : α} {l : List α} (hne : a ≠ null) (hnext : next a = some b)
      (hl : Chain next null b l) : Chain next null a (a :: l)

namespace Chain

@[simp] theorem nil_iff {a : α} : Chain next null a [] ↔ a = null := by
  constructor
  · intro h
    cases h
    rfl
  · rintro rfl
    exact .nil

@[simp] theorem cons_iff {a x : α} {l : List α} :
    Chain next null a (x :: l) ↔ a = x ∧ a ≠ null ∧ ∃ b, next a = some b ∧ Chain next null b l := by
  constructor
  · intro h
    cases h with
    | cons hne hnext hl => exact ⟨rfl, hne, _, hnext, hl⟩
  · rintro ⟨rfl, hne, b, hnext, hl⟩
    exact .cons hne hnext hl

theorem unique {a : α} {l l' : List α} (h : Chain next null a l) (h' : Chain next null a l') :
    l = l' := by
  induction h generalizing l' with
  | nil =>
      cases h' with
      | nil => rfl
      | cons hne => exact absurd rfl hne
  | cons hne hnext _ ih =>
      cases h' with
      | nil => exact absurd rfl hne
      | cons _ hnext' hl' =>
          obtain rfl := Option.some.inj (hnext.symm.trans hnext')
          rw [ih hl']

/-- The end of the list is not a cell of it. -/
theorem ne_null {a x : α} {l : List α} (h : Chain next null a l) (hx : x ∈ l) : x ≠ null := by
  induction h with
  | nil => simp at hx
  | cons hne hnext hl ih =>
      rcases List.mem_cons.mp hx with rfl | hx
      · exact hne
      · exact ih hx

/-- From any of its cells on, a chain is a chain. -/
theorem drop_to {a x : α} {l : List α} (h : Chain next null a l) (hx : x ∈ l) :
    ∃ l', Chain next null x l' ∧ l'.length ≤ l.length := by
  induction h with
  | nil => simp at hx
  | @cons a b l hne hnext hl ih =>
      rcases List.mem_cons.mp hx with rfl | hx
      · exact ⟨_, .cons hne hnext hl, Nat.le_refl _⟩
      · obtain ⟨l', hl', hlen⟩ := ih hx
        exact ⟨l', hl', by simp only [List.length_cons]; omega⟩

/-- No cell occurs twice: it would have to be followed by itself. -/
theorem nodup {a : α} {l : List α} (h : Chain next null a l) : l.Nodup := by
  induction h with
  | nil => exact .nil
  | @cons a b l hne hnext hl ih =>
      refine List.Pairwise.cons ?_ ih
      rintro x hx rfl
      obtain ⟨l', hl', hlen⟩ := hl.drop_to hx
      obtain rfl := hl'.unique (.cons hne hnext hl)
      rw [List.length_cons] at hlen
      omega

end Chain

end LinkedList
