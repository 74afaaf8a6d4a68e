import Mathlib.Algebra.Order.Group.Nat
import Mathlib.Data.Nat.Find
import Pyflame.Library.Interaction

/-!
Loops over numbered entries, with a counter of a fixed width.

The body of such a loop leaves when the counter has reached the number of
entries, or sooner if it has what it wants. With a counter that is too narrow
for the number of entries the first of the two never happens.
-/

namespace Interaction

variable {S : Signature} {E α β : Type} {w : ℕ}

/-- The loop goes round with the variables in the list, one pass for each, and
comes to the last ones. -/
inductive Rounds (body : β → Prog S E (β ⊕ α)) : β → List β → β → Prop
  | here (b : β) : Rounds body b [] b
  | again {b b' c : β} {l : List β} (h : body b = .ret (.inl b')) (hl : Rounds body b' l c) :
      Rounds body b (b :: l) c

/-- A loop that comes to leave returns what it leaves with, given a pass more
than it goes round. -/
theorem Rounds.forever {body : β → Prog S E (β ⊕ α)} {b c : β} {l : List β} {a : α}
    (h : Rounds body b l c) (hleave : body c = .ret (.inr a)) {n : ℕ} (hn : l.length < n) :
    Prog.forever body n b = .ret a := by
  induction h generalizing n with
  | here b =>
      obtain ⟨n, rfl⟩ := Nat.exists_eq_succ_of_ne_zero (Nat.ne_zero_of_lt hn)
      rw [Prog.forever, hleave]
      rfl
  | again h hl ih =>
      obtain ⟨n, rfl⟩ := Nat.exists_eq_succ_of_ne_zero (Nat.ne_zero_of_lt hn)
      rw [Prog.forever, h]
      exact ih hleave (Nat.lt_of_succ_lt_succ hn)

theorem Rounds.snoc {body : β → Prog S E (β ⊕ α)} {b c c' : β} {l : List β} (hl : Rounds body b l c)
    (h : body c = .ret (.inl c')) : Rounds body b (l ++ [c]) c' := by
  induction hl with
  | here b => exact .again h (.here c')
  | again hround hl ih => exact .again hround (ih h)

/-- A loop that returns does so with any number of passes that suffices. -/
theorem forever_of_le {body : β → Prog S E (β ⊕ α)} {b : β} {a : α} {n m : ℕ}
    (h : Prog.forever body n b = .ret a) (hnm : n ≤ m) : Prog.forever body m b = .ret a := by
  induction n generalizing b m with
  | zero => contradiction
  | succ n ih =>
      obtain ⟨m, rfl⟩ := Nat.exists_eq_add_one_of_ne_zero (Nat.ne_zero_of_lt hnm)
      rw [Prog.forever, Prog.bind_eq_ret] at h
      obtain ⟨c, hc, h⟩ := h
      rw [Prog.forever, hc, Prog.ret_bind]
      cases c with
      | inl b' => exact ih h (Nat.le_of_succ_le_succ hnm)
      | inr a' => exact h

/-- The loop ends; it goes over its entries in order, each at most once, and over all
`n` of them unless it stops early. -/
def InOrder (body : β → Prog S E (β ⊕ α)) (count : β → BitVec w) (stop : β → Bool) (n : ℕ)
    (b : β) : Prop :=
  ∃ l c a, Rounds body b l c ∧ body c = .ret (.inr a) ∧
    l.map (fun x => (count x).toNat) = List.range l.length ∧
    (l.length = n ∨ l.length < n ∧ stop c = true)

/-- A loop over `n` entries: `known k` are its variables after the first `k`. -/
structure Counted (body : β → Prog S E (β ⊕ α)) (count : β → BitVec w) (stop : β → Bool) (n : ℕ)
    (known : ℕ → β) : Prop where
  numbered : ∀ k, count (known k) = BitVec.ofNat w k
  stable : ∀ k, stop (known k) = true → stop (known (k + 1)) = true
  entry : ∀ k < n, k < 2 ^ w → stop (known k) = false → body (known k) = .ret (.inl (known (k + 1)))
  early : ∀ b, stop b = true → (count b).toNat < n → ∃ a, body b = .ret (.inr a)
  past : ∀ b, n ≤ (count b).toNat → ∃ a, body b = .ret (.inr a)
  within : ∀ b a, (count b).toNat < n → body b = .ret (.inr a) → stop b = true

namespace Counted

variable {body : β → Prog S E (β ⊕ α)} {count : β → BitVec w} {stop : β → Bool} {n : ℕ}
  {known : ℕ → β}

theorem stop_of_le (h : Counted body count stop n known) {j k : ℕ} (hjk : j ≤ k)
    (hstop : stop (known j) = true) : stop (known k) = true := by
  induction hjk with
  | refl => exact hstop
  | step _ ih => exact h.stable _ ih

/-- As long as the counter has not wrapped it is the number of the entry. -/
theorem toNat_count (h : Counted body count stop n known) {k : ℕ} (hk : k < 2 ^ w) :
    (count (known k)).toNat = k := by
  rw [h.numbered, BitVec.toNat_ofNat, Nat.mod_eq_of_lt hk]

/-- As long as it need not stop, the loop goes from entry to entry. -/
theorem rounds_known (h : Counted body count stop n known) {k : ℕ} (hk : k ≤ n) (hw : k ≤ 2 ^ w)
    (hgo : ∀ j < k, stop (known j) = false) :
    Rounds body (known 0) ((List.range k).map known) (known k) := by
  induction k with
  | zero => exact .here _
  | succ k ih =>
      have hl := ih (Nat.le_of_lt hk) (Nat.le_of_lt hw) fun j hj => hgo j (Nat.lt_succ_of_lt hj)
      rw [List.range_succ, List.map_append]
      exact hl.snoc (h.entry k hk hw (hgo k (Nat.lt_succ_self k)))

/-- If the counter suffices or the loop stops before it wraps, the loop comes to leave,
and has gone over all entries unless it stopped early. -/
theorem exists_leaves (h : Counted body count stop n known)
    (hends : n < 2 ^ w ∨ stop (known (2 ^ w)) = true) :
    ∃ k a, Rounds body (known 0) ((List.range k).map known) (known k) ∧
      body (known k) = .ret (.inr a) ∧ k ≤ 2 ^ w ∧ (k = n ∨ k < n ∧ stop (known k) = true) := by
  -- It leaves at the first entry at which it has a reason to.
  have hsome : ∃ k, k = n ∨ stop (known k) = true := ⟨n, .inl rfl⟩
  obtain ⟨k, hk, hfirst⟩ : ∃ k, (k = n ∨ stop (known k) = true) ∧
      ∀ j < k, ¬ (j = n ∨ stop (known j) = true) :=
    ⟨Nat.find hsome, Nat.find_spec hsome, fun j hj => Nat.find_min hsome hj⟩
  have hkn : k ≤ n := Nat.le_of_not_lt fun hlt => hfirst n hlt (.inl rfl)
  have hkw : k ≤ 2 ^ w := by
    rcases hends with hlt | hstop
    · omega
    · exact Nat.le_of_not_lt fun hlt => hfirst _ hlt (.inr hstop)
  have hl := h.rounds_known hkn hkw fun j hj => Bool.eq_false_iff.mpr fun hj' => hfirst j hj (.inr hj')
  have hleave : ∃ a, body (known k) = .ret (.inr a) := by
    rcases Nat.lt_or_ge (count (known k)).toNat n with hlt | hge
    · -- The counter is below the number of entries, so the loop knows all it wants.
      apply h.early _ _ hlt
      rcases hk with rfl | hstop
      · rcases hends with hlt' | hstop
        · rw [h.toNat_count hlt'] at hlt
          exact absurd hlt (Nat.lt_irrefl k)
        · rwa [Nat.le_antisymm hkw (Nat.le_of_not_lt fun hlt' => by
            rw [h.toNat_count hlt'] at hlt
            exact Nat.lt_irrefl k hlt)]
      · exact hstop
    · exact h.past _ hge
  obtain ⟨a, ha⟩ := hleave
  refine ⟨k, a, hl, ha, hkw, ?_⟩
  rcases Nat.eq_or_lt_of_le hkn with heq | hlt
  · exact .inl heq
  · exact .inr ⟨hlt, hk.resolve_left (Nat.ne_of_lt hlt)⟩

/-- What a loop that ends leaves with its variables: those after all entries, or after
those that told it to stop. -/
theorem forever_known {body : β → Prog S E (β ⊕ β)} (h : Counted body count stop n known)
    (hout : ∀ b a, body b = .ret (.inr a) → a = b)
    (hends : n < 2 ^ w ∨ stop (known (2 ^ w)) = true) :
    ∃ k ≤ n, (k = n ∨ stop (known k) = true) ∧
      ∀ fuel > k, Prog.forever body fuel (known 0) = .ret (known k) := by
  obtain ⟨k, a, hl, hleave, -, hk⟩ := h.exists_leaves hends
  obtain rfl := hout _ _ hleave
  refine ⟨k, ?_, hk.imp_right And.right, fun fuel hfuel => ?_⟩
  · rcases hk with rfl | ⟨hlt, -⟩
    · exact Nat.le_refl k
    · exact Nat.le_of_lt hlt
  · apply hl.forever hleave
    rwa [List.length_map, List.length_range]

/-- Until the counter wraps, the loop can only be where it is known to be. -/
theorem rounds_eq (h : Counted body count stop n known) (hn : 2 ^ w ≤ n) {b c : β} {l : List β}
    (hl : Rounds body b l c) {j : ℕ} (hb : b = known j) (hlen : j + l.length ≤ 2 ^ w) :
    c = known (j + l.length) := by
  induction hl generalizing j with
  | here b => exact hb
  | @again b b' c l hround hl ih =>
      subst hb
      rw [List.length_cons] at hlen ⊢
      have hj : j < 2 ^ w := by omega
      have hgo : stop (known j) = false := by
        rw [Bool.eq_false_iff]
        intro hstop
        obtain ⟨a, ha⟩ := h.early _ hstop (by rw [h.toNat_count hj]; omega)
        rw [hround] at ha
        cases ha
      have hnext := (h.entry j (by omega) hj hgo).symm.trans hround
      rw [show j + (l.length + 1) = j + 1 + l.length by omega]
      exact ih (Sum.inl.inj (Prog.ret.inj hnext)).symm (by omega)

/-- **When a counter is wide enough.** The loop ends and goes over its entries in
order exactly when the counter can hold their number or the loop stops before it
wraps. -/
theorem inOrder_iff (h : Counted body count stop n known) :
    InOrder body count stop n (known 0) ↔ n < 2 ^ w ∨ stop (known (2 ^ w)) = true := by
  constructor
  · rintro ⟨l, c, a, hl, hleave, hmap, -⟩
    by_contra hnot
    obtain ⟨hge, hgo⟩ := not_or.mp hnot
    have hn : 2 ^ w ≤ n := Nat.le_of_not_lt hge
    -- The counter has numbered every pass.
    have hlen : l.length ≤ 2 ^ w := by
      by_contra hlong
      have hmem : 2 ^ w ∈ l.map fun x => (count x).toNat := by
        rw [hmap, List.mem_range]
        omega
      obtain ⟨x, -, hx⟩ := List.mem_map.mp hmem
      have := (count x).isLt
      omega
    have hc := h.rounds_eq hn hl (j := 0) rfl (by omega)
    rw [Nat.zero_add] at hc
    have hcount : (count c).toNat < n := Nat.lt_of_lt_of_le (count c).isLt hn
    have hstop := h.within c a hcount hleave
    rw [hc] at hstop
    exact hgo (h.stop_of_le hlen hstop)
  · intro hends
    obtain ⟨k, a, hl, hleave, hk, hend⟩ := h.exists_leaves hends
    refine ⟨_, known k, a, hl, hleave, ?_, ?_⟩
    · rw [List.map_map, List.length_map, List.length_range]
      conv_rhs => rw [← List.map_id (List.range k)]
      apply List.map_congr_left
      intro j hj
      exact h.toNat_count (Nat.lt_of_lt_of_le (List.mem_range.mp hj) hk)
    · rwa [List.length_map, List.length_range]

end Counted

end Interaction
