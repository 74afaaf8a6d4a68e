import Mathlib.Data.Fintype.Card
import Mathlib.Data.Fintype.EquivFin
import Mathlib.Logic.Relation
import Pyflame.Library.Interaction

/-!
Programs that are given a number of passes for their loops.

A program ends if some number of passes is enough for it. A loop ends if the
walk it makes from one set of variables to the next is well founded, which on
finitely many things is to say that it never comes back to one of them.
-/

namespace Interaction

open Relation

/-! ### Walks -/

section Walks

variable {α γ : Type} {r : α → α → Prop} {q : γ → γ → Prop} {π : α → γ}

/-- Where a walk must end, it does not come back. -/
theorem not_cycle_of_acc {a : α} (h : Acc (flip r) a) : ¬ TransGen r a a := by
  induction h with
  | intro a _ ih =>
      intro hcycle
      obtain ⟨b, hab, hba⟩ := TransGen.head'_iff.mp hcycle
      exact ih b hab (TransGen.tail' hba hab)

theorem acc_of_reach {a b : α} (h : Acc (flip r) a) (hab : ReflTransGen r a b) :
    Acc (flip r) b := by
  induction hab with
  | refl => exact h
  | tail _ hbc ih => exact ih.inv hbc

/-- On finitely many things a walk ends if it comes back to none of them. -/
theorem acc_iff_not_cycle [Finite α] {a : α} :
    Acc (flip r) a ↔ ∀ b, ReflTransGen r a b → ¬ TransGen r b b := by
  constructor
  · intro h b hab
    exact not_cycle_of_acc (acc_of_reach h hab)
  · intro h
    -- Among what can be reached the walk is an order.
    let after (x y : { b // ReflTransGen r a b }) : Prop := TransGen r y.1 x.1
    have htrans : IsTrans _ after := ⟨fun _ _ _ hxy hyz => hyz.trans hxy⟩
    have hirrefl : Std.Irrefl after := ⟨fun x => h x.1 x.2⟩
    have hwf : WellFounded after := Finite.wellFounded_of_trans_of_irrefl after
    have hacc : ∀ x : { b // ReflTransGen r a b }, Acc (flip r) x.1 := by
      intro x
      induction x using hwf.induction with
      | _ x ih => exact ⟨x.1, fun y hxy => ih ⟨y, x.2.tail hxy⟩ (.single hxy)⟩
    exact hacc ⟨a, .refl⟩

/-- A walk and its image: each step of one is a step of the other. -/
structure Images (r : α → α → Prop) (q : γ → γ → Prop) (π : α → γ) : Prop where
  forth : ∀ x y, r x y → q (π x) (π y)
  back : ∀ x c, q (π x) c → ∃ y, π y = c ∧ r x y

theorem Images.acc_iff (h : Images r q π) {x : α} : Acc (flip r) x ↔ Acc (flip q) (π x) := by
  constructor
  · intro hx
    induction hx with
    | intro x _ ih =>
        constructor
        intro c hc
        obtain ⟨y, rfl, hy⟩ := h.back x c hc
        exact ih y hy
  · intro hx
    generalize hc : π x = c at hx
    induction hx generalizing x with
    | intro c _ ih =>
        subst hc
        exact ⟨x, fun y hy => ih (π y) (h.forth x y hy) rfl⟩

theorem Images.reach_iff (h : Images r q π) {x : α} {c : γ} :
    (∃ y, ReflTransGen r x y ∧ π y = c) ↔ ReflTransGen q (π x) c := by
  constructor
  · rintro ⟨y, hy, rfl⟩
    exact hy.lift π h.forth
  · intro hc
    induction hc with
    | refl => exact ⟨x, .refl, rfl⟩
    | tail _ hcd ih =>
        obtain ⟨y, hy, rfl⟩ := ih
        obtain ⟨z, rfl, hyz⟩ := h.back y _ hcd
        exact ⟨z, hy.tail hyz, rfl⟩

end Walks

variable {S : Signature} {E α β σ : Type}

/-! ### Enough passes -/

/-- The program has no loop that it could be stuck in. -/
def Prog.Uncut : Prog S E α → Prop
  | .call _ k => ∀ x, (k x).Uncut
  | .cut => False
  | .ret _ | .raise _ | .abort => True

namespace Prog.Uncut

theorem ret (a : α) : (Prog.ret a : Prog S E α).Uncut := trivial

theorem bind {p : Prog S E β} {f : β → Prog S E α} (hp : p.Uncut) (hf : ∀ b, (f b).Uncut) :
    (p.bind f).Uncut := by
  induction p with
  | ret b => exact hf b
  | call r k ih => exact fun x => ih x (hp x)
  | raise | abort => trivial
  | cut => exact hp.elim

theorem ite {c : Prop} [Decidable c] {p q : Prog S E α} (hp : p.Uncut) (hq : q.Uncut) :
    (if c then p else q).Uncut := by
  split_ifs
  · exact hp
  · exact hq

theorem run_ne_cut {p : Prog S E α} (hp : p.Uncut) (h : Handler S σ) (s : σ) :
    (run h p s).1 ≠ .cut := by
  induction p generalizing s with
  | call r k ih => exact ih _ (hp _) _
  | ret | raise | abort => nofun
  | cut => exact hp.elim

theorem wp_ne_cut {p : Prog S E α} (hp : p.Uncut) {v : Env S σ} (hv : ∀ s r, v.permits s r)
    (s : σ) : wp v (fun o _ => o ≠ .cut) p s := by
  induction p generalizing s with
  | call r k ih => exact ⟨hv s r, fun x s' _ => ih x (hp x) s'⟩
  | ret | raise | abort => nofun
  | cut => exact hp.elim

end Prog.Uncut

/-- More passes than enough make no difference. -/
def Steady (h : Handler S σ) (p : ℕ → Prog S E α) : Prop :=
  ∀ s n m, n ≤ m → (run h (p n) s).1 ≠ .cut → run h (p m) s = run h (p n) s

/-- Given enough passes, the program ends like this. -/
structure EndsWith (h : Handler S σ) (p : ℕ → Prog S E α) (s : σ) (r : Outcome E α × σ) :
    Prop where
  not_cut : r.1 ≠ .cut
  enough : ∃ n, run h (p n) s = r

def Ends (h : Handler S σ) (p : ℕ → Prog S E α) (s : σ) : Prop := ∃ r, EndsWith h p s r

section

variable {h : Handler S σ} {s : σ}

theorem ends_iff {p : ℕ → Prog S E α} : Ends h p s ↔ ∃ n, (run h (p n) s).1 ≠ .cut := by
  constructor
  · rintro ⟨r, hcut, n, hrun⟩
    exact ⟨n, hrun ▸ hcut⟩
  · rintro ⟨n, hcut⟩
    exact ⟨_, hcut, n, rfl⟩

namespace Steady

theorem const (p : Prog S E α) : Steady h fun _ => p := fun _ _ _ _ _ => rfl

theorem ite {c : Prop} [Decidable c] {p q : ℕ → Prog S E α} (hp : Steady h p) (hq : Steady h q) :
    Steady h fun n => if c then p n else q n := by
  by_cases hc : c
  · simpa only [if_pos hc] using hp
  · simpa only [if_neg hc] using hq

theorem bind {p : ℕ → Prog S E β} {f : ℕ → β → Prog S E α} (hp : Steady h p)
    (hf : ∀ b, Steady h fun n => f n b) : Steady h fun n => (p n).bind (f n) := by
  intro s n m hnm hcut
  simp only [run_bind] at hcut ⊢
  rcases hrun : run h (p n) s with ⟨b | e | _ | _, s'⟩
  all_goals rw [hrun] at hcut
  · rw [hp s n m hnm (by rw [hrun]; nofun), hrun]
    exact hf b s' n m hnm hcut
  · rw [hp s n m hnm (by rw [hrun]; nofun), hrun]
  · rw [hp s n m hnm (by rw [hrun]; nofun), hrun]
  · exact absurd rfl hcut

/-- A loop, with a number of passes of its own. -/
theorem forever_of_le {body : ℕ → β → Prog S E (β ⊕ α)} (hbody : ∀ b, Steady h fun n => body n b)
    {n m k l : ℕ} (hnm : n ≤ m) (hkl : k ≤ l) {b : β}
    (hcut : (run h (Prog.forever (body n) k b) s).1 ≠ .cut) :
    run h (Prog.forever (body m) l b) s = run h (Prog.forever (body n) k b) s := by
  -- On the shorter of the two runs, which the longer one repeats pass by pass.
  induction k generalizing l b s with
  | zero => exact absurd rfl hcut
  | succ k ih =>
      obtain ⟨l, rfl⟩ := Nat.exists_eq_add_one_of_ne_zero (Nat.ne_zero_of_lt hkl)
      simp only [Prog.forever, run_bind] at hcut ⊢
      rcases hrun : run h (body n b) s with ⟨(b' | a) | e | _ | _, s'⟩
      all_goals rw [hrun] at hcut
      · rw [hbody b s n m hnm (by rw [hrun]; nofun), hrun]
        exact ih (Nat.le_of_succ_le_succ hkl) hcut
      · rw [hbody b s n m hnm (by rw [hrun]; nofun), hrun]
      · rw [hbody b s n m hnm (by rw [hrun]; nofun), hrun]
      · rw [hbody b s n m hnm (by rw [hrun]; nofun), hrun]
      · exact absurd rfl hcut

theorem forever {body : ℕ → β → Prog S E (β ⊕ α)} (hbody : ∀ b, Steady h fun n => body n b)
    (b : β) : Steady h fun n => Prog.forever (body n) n b :=
  fun _ _ _ hnm hcut => forever_of_le hbody hnm hnm hcut

end Steady

namespace EndsWith

variable {p : ℕ → Prog S E α} {r r' : Outcome E α × σ}

theorem of_run {n : ℕ} (hrun : run h (p n) s = r) (hcut : r.1 ≠ .cut) : EndsWith h p s r :=
  ⟨hcut, n, hrun⟩

/-- From some number of passes on. -/
theorem eventually (hr : EndsWith h p s r) (hp : Steady h p) : ∃ n, ∀ m ≥ n, run h (p m) s = r := by
  obtain ⟨n, hrun⟩ := hr.enough
  refine ⟨n, fun m hm => ?_⟩
  rw [← hrun]
  apply hp s n m hm
  rw [hrun]
  exact hr.not_cut

theorem unique (hr : EndsWith h p s r) (hr' : EndsWith h p s r') (hp : Steady h p) : r = r' := by
  obtain ⟨n, hn⟩ := hr.eventually hp
  obtain ⟨m, hm⟩ := hr'.eventually hp
  rw [← hn _ (Nat.le_max_left n m), hm _ (Nat.le_max_right n m)]

end EndsWith

theorem Steady.ends_iff {p : ℕ → Prog S E α} (hp : Steady h p) :
    Ends h p s ↔ ∃ enough, ∀ n ≥ enough, (run h (p n) s).1 ≠ .cut := by
  constructor
  · rintro ⟨r, hr⟩
    obtain ⟨n, hn⟩ := hr.eventually hp
    refine ⟨n, fun m hm => ?_⟩
    rw [hn m hm]
    exact hr.not_cut
  · rintro ⟨n, hn⟩
    exact Interaction.ends_iff.mpr ⟨n, hn n (Nat.le_refl n)⟩

theorem ends_const {p : Prog S E α} (hp : p.Uncut) : Ends h (fun _ => p) s :=
  ends_iff.mpr ⟨0, hp.run_ne_cut h s⟩

theorem endsWith_const {p : Prog S E α} {r : Outcome E α × σ} :
    EndsWith h (fun _ => p) s r ↔ r.1 ≠ .cut ∧ run h p s = r := by
  constructor
  · rintro ⟨hcut, -, hrun⟩
    exact ⟨hcut, hrun⟩
  · rintro ⟨hcut, hrun⟩
    exact ⟨hcut, 0, hrun⟩

section Bind

variable {p : ℕ → Prog S E β} {f : ℕ → β → Prog S E α}

/-- A sequence that ends has come through its first part. -/
theorem EndsWith.of_bind {r : Outcome E α × σ} (hr : EndsWith h (fun n => (p n).bind (f n)) s r) :
    ∃ o, EndsWith h p s o ∧ ∀ b s', o = (.ok b, s') → EndsWith h (fun n => f n b) s' r := by
  obtain ⟨hcut, n, hrun⟩ := hr
  rw [run_bind] at hrun
  rcases hp : run h (p n) s with ⟨b | e | _ | _, s'⟩
  all_goals rw [hp] at hrun
  · refine ⟨_, .of_run hp nofun, ?_⟩
    rintro _ _ ⟨⟩
    exact ⟨hcut, n, hrun⟩
  · exact ⟨_, .of_run hp nofun, nofun⟩
  · exact ⟨_, .of_run hp nofun, nofun⟩
  · exact absurd (congrArg Prod.fst hrun).symm hcut

/-- What is returned in the end goes through what the first part returned. -/
theorem endsWith_bind_ok (hp : Steady h p) (hf : ∀ b, Steady h fun n => f n b) {a : α} {s'' : σ} :
    EndsWith h (fun n => (p n).bind (f n)) s (.ok a, s'') ↔
      ∃ b s', EndsWith h p s (.ok b, s') ∧ EndsWith h (fun n => f n b) s' (.ok a, s'') := by
  constructor
  · rintro ⟨hcut, n, hrun⟩
    rw [run_bind] at hrun
    rcases hpn : run h (p n) s with ⟨b | e | _ | _, s'⟩
    all_goals rw [hpn] at hrun
    · exact ⟨b, s', .of_run hpn nofun, hcut, n, hrun⟩
    all_goals cases hrun
  · rintro ⟨b, s', hb, ha⟩
    obtain ⟨n, hn⟩ := hb.eventually hp
    obtain ⟨m, hm⟩ := ha.eventually (hf b)
    -- Enough for both parts.
    refine ⟨nofun, max n m, ?_⟩
    rw [run_bind_ok h (hn _ (Nat.le_max_left n m)), hm _ (Nat.le_max_right n m)]

theorem ends_bind_iff (hp : Steady h p) (hf : ∀ b, Steady h fun n => f n b) :
    Ends h (fun n => (p n).bind (f n)) s ↔
      Ends h p s ∧ ∀ b s', EndsWith h p s (.ok b, s') → Ends h (fun n => f n b) s' := by
  constructor
  · rintro ⟨r, hr⟩
    obtain ⟨o, ho, hrest⟩ := hr.of_bind
    refine ⟨⟨o, ho⟩, fun b s' hb => ⟨r, hrest b s' (ho.unique hb hp)⟩⟩
  · rintro ⟨⟨⟨o, s'⟩, ho⟩, hrest⟩
    obtain ⟨n, hn⟩ := ho.eventually hp
    cases o with
    | ok b =>
        obtain ⟨r, hr⟩ := hrest b s' ho
        obtain ⟨m, hm⟩ := hr.eventually (hf b)
        refine ⟨r, hr.not_cut, max n m, ?_⟩
        rw [run_bind_ok h (hn _ (Nat.le_max_left n m)), hm _ (Nat.le_max_right n m)]
    | error e =>
        refine ⟨(.error e, s'), nofun, n, ?_⟩
        rw [run_bind, hn n (Nat.le_refl n)]
    | abort =>
        refine ⟨(.abort, s'), nofun, n, ?_⟩
        rw [run_bind, hn n (Nat.le_refl n)]
    | cut => exact absurd rfl ho.not_cut

end Bind

/-! ### Loops -/

/-- A pass of the loop goes round, from one set of variables to the next. -/
def Leads (h : Handler S σ) (body : ℕ → β → Prog S E (β ⊕ α)) (x y : β × σ) : Prop :=
  EndsWith h (fun n => body n x.1) x.2 (.ok (.inl y.1), y.2)

/-- **When a loop ends.** Its walk ends, and so does every pass on the way. -/
theorem ends_forever_iff {body : ℕ → β → Prog S E (β ⊕ α)}
    (hbody : ∀ b, Steady h fun n => body n b) {b : β} :
    Ends h (fun n => Prog.forever (body n) n b) s ↔ Acc (flip (Leads h body)) (b, s) ∧
      ∀ x, ReflTransGen (Leads h body) (b, s) x → Ends h (fun n => body n x.1) x.2 := by
  constructor
  · rw [ends_iff]
    rintro ⟨n, hcut⟩
    -- The induction is on the passes that are left, the passes inside stay `n`.
    suffices hwalk : ∀ k b s, (run h (Prog.forever (body n) k b) s).1 ≠ .cut →
        Acc (flip (Leads h body)) (b, s) ∧
          ∀ x, ReflTransGen (Leads h body) (b, s) x → Ends h (fun n => body n x.1) x.2 from
      hwalk n b s hcut
    intro k
    induction k with
    | zero => exact fun _ _ hcut => absurd rfl hcut
    | succ k ih =>
        intro b s hcut
        rw [Prog.forever, run_bind] at hcut
        have hends : (run h (body n b) s).1 ≠ .cut := by
          intro hbcut
          rcases hrun : run h (body n b) s with ⟨_ | _ | _ | _, s'⟩
          all_goals rw [hrun] at hcut hbcut
          · cases hbcut
          · cases hbcut
          · cases hbcut
          · exact hcut rfl
        have hnext : ∀ y, Leads h body (b, s) y → (run h (Prog.forever (body n) k y.1) y.2).1 ≠ .cut := by
          intro y hy
          have hrun := (EndsWith.of_run (p := fun n => body n b) rfl hends).unique hy (hbody b)
          rw [hrun] at hcut
          exact hcut
        constructor
        · exact ⟨_, fun y hy => (ih y.1 y.2 (hnext y hy)).1⟩
        · intro x hx
          rcases hx.cases_head with rfl | ⟨y, hy, hx⟩
          · exact ⟨_, .of_run rfl hends⟩
          · exact (ih y.1 y.2 (hnext y hy)).2 x hx
  · rintro ⟨hacc, hends⟩
    generalize hx : (b, s) = x at hacc hends
    induction hacc generalizing b s with
    | intro x _ ih =>
        subst hx
        obtain ⟨⟨o, s'⟩, ho⟩ := hends _ .refl
        obtain ⟨n, hn⟩ := ho.eventually (hbody b)
        rw [ends_iff]
        have hpass := hn (n + 1) (Nat.le_succ n)
        cases o with
        | ok c =>
            cases c with
            | inl b' =>
                have hgo : Leads h body (b, s) (b', s') := ho
                obtain ⟨r, hr⟩ := ih (b', s') hgo rfl fun y hy => hends y (.head hgo hy)
                obtain ⟨m, hm⟩ := hr.eventually (.forever hbody b')
                have hrest := hm _ (Nat.le_max_right n m)
                have hcut : (run h (Prog.forever (body (max n m)) (max n m) b') s').1 ≠ .cut := by
                  rw [hrest]
                  exact hr.not_cut
                refine ⟨max n m + 1, ?_⟩
                rw [Prog.forever, run_bind_ok h (hn _ (Nat.le_succ_of_le (Nat.le_max_left n m)))]
                rw [Steady.forever_of_le hbody (Nat.le_succ _) (Nat.le_refl _) hcut, hrest]
                exact hr.not_cut
            | inr a =>
                refine ⟨n + 1, ?_⟩
                rw [Prog.forever, run_bind_ok h hpass]
                exact nofun
        | error e =>
            refine ⟨n + 1, ?_⟩
            rw [Prog.forever, run_bind, hpass]
            exact nofun
        | abort =>
            refine ⟨n + 1, ?_⟩
            rw [Prog.forever, run_bind, hpass]
            exact nofun
        | cut => exact absurd rfl ho.not_cut

end

end Interaction
