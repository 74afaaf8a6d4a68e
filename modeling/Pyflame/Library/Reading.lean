import Pyflame.Library.Interaction

/-!
Programs that only read.

Where the environment gives the same answer to the same request every time, a
program has one run, and what it asks for and how it ends can be computed along
its tree: `Within` says that all it asks for lies in a given set and that no
assertion of it fails, `value` is its outcome. A read that can itself fail is a
program in turn, and `inline` puts that program in its place.
-/

namespace Interaction

variable {S T : Signature} {E α β : Type}

/-! ### The one run against fixed answers -/

/-- How the run ends. -/
def value (g : (r : S.Req) → S.Rep r) (p : Prog S E α) : Outcome E α := (run (answer g) p ()).1

/-- What is asked for in the run lies in `I`, and no assertion fails. -/
def Within (g : (r : S.Req) → S.Rep r) (I : S.Req → Prop) : Prog S E α → Prop
  | .call r k => I r ∧ Within g I (k (g r))
  | .abort => False
  | .ret _ | .raise _ | .cut => True

section

variable {g : (r : S.Req) → S.Rep r} {I : S.Req → Prop}

theorem within_iff {p : Prog S E α} :
    Within g I p ↔ (∀ x ∈ trace (answer g) p (), I x.req) ∧ value g p ≠ .abort := by
  induction p with
  | call r k ih =>
      rw [Within, ih, trace, List.forall_mem_cons, and_assoc]
      exact Iff.rfl
  | ret | raise | abort | cut => simp [Within, trace, value, run]

@[simp] theorem value_ret (a : α) : value g (.ret a : Prog S E α) = .ok a := rfl
@[simp] theorem value_raise (e : E) : value g (.raise e : Prog S E α) = .error e := rfl
@[simp] theorem value_abort : value g (.abort : Prog S E α) = .abort := rfl
@[simp] theorem value_cut : value g (.cut : Prog S E α) = .cut := rfl
@[simp] theorem value_call (r : S.Req) (k : S.Rep r → Prog S E α) :
    value g (.call r k) = value g (k (g r)) := rfl

@[simp] theorem within_ret (a : α) : Within g I (.ret a : Prog S E α) ↔ True := Iff.rfl
@[simp] theorem within_raise (e : E) : Within g I (.raise e : Prog S E α) ↔ True := Iff.rfl
@[simp] theorem within_abort : Within g I (.abort : Prog S E α) ↔ False := Iff.rfl
@[simp] theorem within_cut : Within g I (.cut : Prog S E α) ↔ True := Iff.rfl
@[simp] theorem within_call (r : S.Req) (k : S.Rep r → Prog S E α) :
    Within g I (.call r k) ↔ I r ∧ Within g I (k (g r)) := Iff.rfl

theorem within_ite {c : Prop} [Decidable c] {p q : Prog S E α} :
    Within g I (if c then p else q) ↔ if c then Within g I p else Within g I q := by
  by_cases hc : c
  · rw [if_pos hc, if_pos hc]
  · rw [if_neg hc, if_neg hc]

theorem value_bind {p : Prog S E α} {a : α} (h : value g p = .ok a) (f : α → Prog S E β) :
    value g (p.bind f) = value g (f a) := by
  induction p with
  | call r k ih => exact ih _ h
  | ret b =>
      cases h
      rfl
  | raise | abort | cut => cases h

theorem value_bind_eq_ok {p : Prog S E α} {f : α → Prog S E β} {b : β} :
    value g (p.bind f) = .ok b ↔ ∃ a, value g p = .ok a ∧ value g (f a) = .ok b := by
  induction p with
  | call r k ih => exact ih _
  | ret a => simp
  | raise | abort | cut => simp [Prog.bind]

theorem within_bind {p : Prog S E α} {f : α → Prog S E β} :
    Within g I (p.bind f) ↔ Within g I p ∧ ∀ a, value g p = .ok a → Within g I (f a) := by
  induction p with
  | call r k ih =>
      rw [Prog.call_bind, within_call, ih, within_call, and_assoc]
      exact Iff.rfl
  | ret | raise | abort | cut => simp [Prog.bind]

/-- Sequence, where the first part is known to return. -/
theorem within_bind_ok {p : Prog S E α} {a : α} (h : value g p = .ok a) (f : α → Prog S E β) :
    Within g I (p.bind f) ↔ Within g I p ∧ Within g I (f a) := by
  rw [within_bind, h]
  constructor
  · exact fun hw => ⟨hw.1, hw.2 a rfl⟩
  · rintro ⟨hp, hf⟩
    exact ⟨hp, fun _ h => Outcome.ok.inj h ▸ hf⟩

theorem value_foldlM {f : α → β → Prog S E α} {step : α → β → α}
    (hf : ∀ a b, value g (f a b) = .ok (step a b)) (l : List β) (a : α) :
    value g (l.foldlM f a) = .ok (l.foldl step a) := by
  induction l generalizing a with
  | nil => rfl
  | cons b l ih =>
      rw [List.foldlM_cons, Prog.bind_eq, value_bind (hf a b), ih]
      rfl

/-- A loop over a list of which every pass asks for the same, whatever came before. -/
theorem within_foldlM {f : α → β → Prog S E α} {step : α → β → α} {C : β → Prop}
    (hf : ∀ a b, value g (f a b) = .ok (step a b)) (hC : ∀ a b, Within g I (f a b) ↔ C b)
    (l : List β) (a : α) : Within g I (l.foldlM f a) ↔ ∀ b ∈ l, C b := by
  induction l generalizing a with
  | nil => simp
  | cons b l ih =>
      rw [List.foldlM_cons, Prog.bind_eq, within_bind_ok (hf a b), hC, ih, List.forall_mem_cons]

/-! ### Loops -/

/-- The `k`-th pass of a loop starts from `start k`. It goes round again where `go` says
so, and leaves with `out k` where not. -/
structure Passes (g : (r : S.Req) → S.Rep r) (body : β → Prog S E (β ⊕ α)) (start : ℕ → β)
    (go : ℕ → Prop) (out : ℕ → α) : Prop where
  again : ∀ k, go k → value g (body (start k)) = .ok (.inl (start (k + 1)))
  leave : ∀ k, ¬ go k → value g (body (start k)) = .ok (.inr (out k))

namespace Passes

variable {body : β → Prog S E (β ⊕ α)} {start : ℕ → β} {go : ℕ → Prop} {out : ℕ → α}

/-- The passes that are left after the first one. -/
theorem rest (h : Passes g body start go out) :
    Passes g body (start <| · + 1) (go <| · + 1) (out <| · + 1) :=
  ⟨fun k => h.again (k + 1), fun k => h.leave (k + 1)⟩

/-- What a loop asks for is what the passes ask for that it gets to. -/
theorem within_forever (h : Passes g body start go out) (fuel : ℕ) :
    Within g I (Prog.forever body fuel (start 0)) ↔
      ∀ k < fuel, (∀ j < k, go j) → Within g I (body (start k)) := by
  induction fuel generalizing start go out with
  | zero => simp [Prog.forever]
  | succ fuel ih =>
      rw [Prog.forever]
      -- If the first pass goes round, the rest is the loop from the second one on.
      by_cases hgo : go 0
      · rw [within_bind_ok (h.again 0 hgo)]
        simp only
        rw [ih h.rest]
        constructor
        · rintro ⟨hfirst, hrest⟩ k hk hbefore
          cases k with
          | zero => exact hfirst
          | succ k => exact hrest k (by omega) fun j hj => hbefore (j + 1) (by omega)
        · intro hall
          refine ⟨hall 0 (by omega) nofun, fun k hk hbefore => hall (k + 1) (by omega) fun j hj => ?_⟩
          cases j with
          | zero => exact hgo
          | succ j => exact hbefore j (by omega)
      · rw [within_bind_ok (h.leave 0 hgo)]
        simp only [within_ret, and_true]
        constructor
        · intro hfirst k hk hbefore
          cases k with
          | zero => exact hfirst
          | succ k => exact absurd (hbefore 0 (by omega)) hgo
        · exact fun hall => hall 0 (by omega) nofun

/-- A loop returns what the first pass leaves with that does not go round again. -/
theorem value_forever (h : Passes g body start go out) (fuel : ℕ) (a : α) :
    value g (Prog.forever body fuel (start 0)) = .ok a ↔
      ∃ k < fuel, (∀ j < k, go j) ∧ ¬ go k ∧ out k = a := by
  induction fuel generalizing start go out with
  | zero => simp [Prog.forever]
  | succ fuel ih =>
      rw [Prog.forever]
      by_cases hgo : go 0
      · rw [value_bind (h.again 0 hgo)]
        simp only
        rw [ih h.rest]
        constructor
        · rintro ⟨k, hk, hbefore, hleave⟩
          refine ⟨k + 1, by omega, fun j hj => ?_, hleave⟩
          cases j with
          | zero => exact hgo
          | succ j => exact hbefore j (by omega)
        · rintro ⟨k, hk, hbefore, hleave⟩
          cases k with
          | zero => exact absurd hgo hleave.1
          | succ k => exact ⟨k, by omega, fun j hj => hbefore (j + 1) (by omega), hleave⟩
      · rw [value_bind (h.leave 0 hgo)]
        simp only [value_ret, Outcome.ok.injEq]
        constructor
        · exact fun hout => ⟨0, by omega, nofun, hgo, hout⟩
        · rintro ⟨k, hk, hbefore, hleave⟩
          cases k with
          | zero => exact hleave.2
          | succ k => exact absurd (hbefore 0 (by omega)) hgo

end Passes

end

/-! ### Reads that are programs -/

/-- What comes after a program matters only where it returns. -/
theorem Returns.bind_congr {P : α → Prop} {p : Prog S E α} {f f' : α → Prog S E β}
    (hp : Returns P p) (h : ∀ a, P a → f a = f' a) : p.bind f = p.bind f' := by
  induction p with
  | call r k ih =>
      rw [Prog.call_bind, Prog.call_bind]
      congr 1
      funext x
      exact ih x fun _ => (hp ()).2 x () trivial
  | ret a => exact h a (hp () a rfl)
  | raise | abort | cut => rfl

namespace Prog

/-- Put a program in the place of every request. -/
def inline (impl : (r : S.Req) → Prog T E (S.Rep r)) : Prog S E α → Prog T E α
  | .ret a => .ret a
  | .raise e => .raise e
  | .abort => .abort
  | .cut => .cut
  | .call r k => (impl r).bind fun x => (k x).inline impl

variable (impl : (r : S.Req) → Prog T E (S.Rep r))

@[simp] theorem inline_ret (a : α) : (ret a : Prog S E α).inline impl = .ret a := rfl
@[simp] theorem inline_raise (e : E) : (raise e : Prog S E α).inline impl = .raise e := rfl
@[simp] theorem inline_abort : (abort : Prog S E α).inline impl = .abort := rfl
@[simp] theorem inline_call (r : S.Req) (k : S.Rep r → Prog S E α) :
    (call r k).inline impl = (impl r).bind fun x => (k x).inline impl := rfl

@[simp] theorem inline_bind (p : Prog S E α) (f : α → Prog S E β) :
    (p.bind f).inline impl = (p.inline impl).bind fun a => (f a).inline impl := by
  induction p with
  | call r k ih =>
      rw [call_bind, inline_call, inline_call, bind_assoc]
      congr 1
      funext x
      exact ih x
  | ret | raise | abort | cut => rfl

@[simp] theorem inline_ite {c : Prop} [Decidable c] (p q : Prog S E α) :
    (if c then p else q).inline impl = if c then p.inline impl else q.inline impl := by
  split_ifs <;> rfl

theorem inline_forever {body : β → Prog S E (β ⊕ α)} {body' : β → Prog T E (β ⊕ α)}
    (h : ∀ b, (body b).inline impl = body' b) (fuel : ℕ) (b : β) :
    (forever body fuel b).inline impl = forever body' fuel b := by
  induction fuel generalizing b with
  | zero => rfl
  | succ fuel ih =>
      rw [forever, forever, inline_bind, h]
      congr 1
      funext c
      cases c with
      | inl b' => exact ih b'
      | inr a => rfl

/-- A loop over a list, with an invariant of what it has so far. -/
theorem inline_foldlM {P : α → Prop} {f : α → β → Prog S E α} {f' : α → β → Prog T E α}
    (h : ∀ a b, P a → (f a b).inline impl = f' a b) (hP : ∀ a b, P a → Returns P (f' a b))
    (l : List β) {a : α} (ha : P a) : (l.foldlM f a).inline impl = l.foldlM f' a := by
  induction l generalizing a with
  | nil => rfl
  | cons b l ih =>
      rw [List.foldlM_cons, List.foldlM_cons, bind_eq, bind_eq, inline_bind, h a b ha]
      exact (hP a b ha).bind_congr fun a ha => ih ha

end Prog

/-- The program that only ends in this way. -/
def Outcome.prog : Outcome E α → Prog S E α
  | .ok a => .ret a
  | .error e => .raise e
  | .abort => .abort
  | .cut => .cut

theorem Outcome.eq_ok_of_prog {o : Outcome E α} {a : α} (h : (o.prog : Prog S E α) = .ret a) :
    o = .ok a := by
  cases o with
  | ok b => exact congrArg Outcome.ok (Prog.ret.inj h)
  | error | abort | cut => cases h

/-- Where every read that is made answers as the table says, the program is its
outcome. -/
theorem inline_of_within {g : (r : S.Req) → S.Rep r} {I : S.Req → Prop}
    {impl : (r : S.Req) → Prog T E (S.Rep r)} (himpl : ∀ r, I r → impl r = .ret (g r))
    {p : Prog S E α} (hp : Within g I p) : p.inline impl = (value g p).prog := by
  induction p with
  | call r k ih =>
      rw [Prog.inline_call, himpl r hp.1]
      exact ih _ hp.2
  | ret | raise | abort | cut => rfl

end Interaction
