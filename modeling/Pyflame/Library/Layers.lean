import Pyflame.Library.Interaction

/-!
Programs over calls that are programs themselves.

`Keeps` is about one layer: an invariant that holds wherever a program
returns or raises. `Env.via` joins two: the environment that a program
meets when each of its requests is carried out by a program against a
lower environment. What such a call may reply is what the lower program may
return, and it is permitted where all that the lower program asks for is.
-/

namespace Interaction

variable {S T : Signature} {E F α β σ τ : Type}

/-! ### Invariants -/

/-- **The rule of a program whose requests keep an invariant.** -/
theorem wp_of_only {v : Env S σ} {I : σ → Prop} {P : S.Req → Prop} {p : Prog S E α} (hp : p.Only P)
    (h : ∀ r, P r → ∀ s, I s → v.permits s r ∧ ∀ x s', v.step s r x s' → I s') {s : σ} (hs : I s) :
    wp v (fun _ => I) p s := by
  induction p generalizing s with
  | call r k ih =>
      obtain ⟨hpermits, hstep⟩ := h r hp.1 s hs
      exact ⟨hpermits, fun x s' hx => ih x (hp.2 x) (hstep x s' hx)⟩
  | ret | raise | abort | cut => exact hs

/-- The invariant holds where a program returns and where it raises. -/
def AtEnd (I : σ → Prop) : Outcome E α → σ → Prop
  | .ok _, s | .error _, s => I s
  | .abort, _ | .cut, _ => True

/-- Started where the invariant holds, the program asks for permitted things only and
ends where the invariant holds. -/
def Keeps (v : Env S σ) (I : σ → Prop) (p : Prog S E α) : Prop := ∀ s, I s → wp v (AtEnd I) p s

namespace Keeps

variable {v : Env S σ} {I : σ → Prop}

theorem ret {a : α} : Keeps v I (.ret a : Prog S E α) := fun _ h => h
theorem raise {e : E} : Keeps v I (.raise e : Prog S E α) := fun _ h => h
theorem abort : Keeps v I (.abort : Prog S E α) := fun _ _ => trivial
theorem cut : Keeps v I (.cut : Prog S E α) := fun _ _ => trivial

theorem ask {r : S.Req} (hpermits : ∀ s, I s → v.permits s r)
    (h : ∀ s x s', I s → v.step s r x s' → I s') : Keeps v I (Prog.ask r : Prog S E (S.Rep r)) :=
  fun s hs => ⟨hpermits s hs, fun x s' hx => h s x s' hs hx⟩

theorem bind {p : Prog S E β} {f : β → Prog S E α} (hp : Keeps v I p) (hf : ∀ b, Keeps v I (f b)) :
    Keeps v I (p.bind f) := by
  intro s hs
  refine wp_bind_of (hp s hs) fun o s' ho => ?_
  cases o with
  | ok b => exact hf b s' ho
  | error => exact ho
  | abort | cut => trivial

theorem handle {p : Prog S E α} {f : E → Prog S E α} (hp : Keeps v I p)
    (hf : ∀ e, Keeps v I (f e)) : Keeps v I (p.handle f) := by
  intro s hs
  refine wp_handle.mpr (wp_mono (fun o s' ho => ?_) (hp s hs))
  cases o with
  | ok => exact ho
  | error e => exact hf e s' ho
  | abort | cut => trivial

theorem attempt {p : Prog S E α} (hp : Keeps v I p) : Keeps v I p.attempt :=
  (hp.bind fun _ => ret).handle fun _ => ret

theorem ite {c : Prop} [Decidable c] {p q : Prog S E α} (hp : Keeps v I p) (hq : Keeps v I q) :
    Keeps v I (if c then p else q) := by
  split_ifs
  · exact hp
  · exact hq

theorem forever {body : β → Prog S E (β ⊕ α)} (h : ∀ b, Keeps v I (body b)) (n : ℕ) (b : β) :
    Keeps v I (Prog.forever body n b) := by
  induction n generalizing b with
  | zero => exact cut
  | succ n ih =>
      apply (h b).bind
      intro c
      cases c with
      | inl b' => exact ih b'
      | inr a => exact ret

theorem forM {l : List β} {f : β → Prog S E PUnit} (h : ∀ b ∈ l, Keeps v I (f b)) :
    Keeps v I (l.forM f) := by
  induction l with
  | nil => exact ret
  | cons b l ih =>
      obtain ⟨hb, hl⟩ := List.forall_mem_cons.mp h
      exact hb.bind fun _ => ih hl

/-- A program all of whose requests keep the invariant. -/
theorem of_only {P : S.Req → Prop} {p : Prog S E α} (hp : p.Only P)
    (h : ∀ r, P r → ∀ s, I s → v.permits s r ∧ ∀ x s', v.step s r x s' → I s') : Keeps v I p := by
  intro s hs
  refine wp_mono (fun o s' hs' => ?_) (wp_of_only hp h hs)
  cases o with
  | ok | error => exact hs'
  | abort | cut => trivial

/-- A program each of whose calls keeps the invariant. -/
theorem of_calls {P : S.Req → Prop} {p : Prog S E α} (hp : p.Only P)
    (h : ∀ r, P r → Keeps v I (Prog.ask r : Prog S E (S.Rep r))) : Keeps v I p :=
  of_only hp fun r hr s hs => h r hr s hs

end Keeps

/-- Some run of the program from `s` ends in this way in this state. -/
def may (v : Env S σ) : Prog S E α → σ → Outcome E α → σ → Prop
  | .ret a, s, o, s' => o = .ok a ∧ s' = s
  | .raise e, s, o, s' => o = .error e ∧ s' = s
  | .abort, s, o, s' => o = .abort ∧ s' = s
  | .cut, s, o, s' => o = .cut ∧ s' = s
  | .call r k, s, o, s' => ∃ x t, v.step s r x t ∧ may v (k x) t o s'

theorem wp_may {v : Env S σ} {Q : Outcome E α → σ → Prop} {p : Prog S E α} {s s' : σ}
    {o : Outcome E α} (hp : wp v Q p s) (h : may v p s o s') : Q o s' := by
  induction p generalizing s with
  | call r k ih =>
      obtain ⟨x, t, hx, ht⟩ := h
      exact ih x (hp.2 x t hx) ht
  | ret | raise | abort | cut =>
      obtain ⟨rfl, rfl⟩ := h
      exact hp

/-- The environment above the programs that carry out the requests. `guard` says
where a call may be made. -/
def Env.via (v : Env T σ) (guard : σ → S.Req → Prop) (impl : (r : S.Req) → Prog T F (S.Rep r)) :
    Env S σ where
  step s r x s' := may v (impl r) s (.ok x) s'
  permits s r := guard s r ∧ wp v (fun _ _ => True) (impl r) s

/-- The same of a handler. `lost` is what a call replies whose program does not
return. -/
def Handler.via (h : Handler T σ) (impl : (r : S.Req) → Prog T F (S.Rep r))
    (lost : (r : S.Req) → S.Rep r) : Handler S σ := fun r s =>
  match run h (impl r) s with
  | (.ok x, s') => (x, s')
  | (_, s') => (lost r, s')

/-! ### Simulations -/

/-- Of the requests in question, the two handlers give the same reply and stay related. -/
def Simulates (h : Handler S σ) (h' : Handler S τ) (R : σ → τ → Prop) (P : S.Req → Prop) : Prop :=
  ∀ r, P r → ∀ s t, R s t → (h r s).1 = (h' r t).1 ∧ R (h r s).2 (h' r t).2

/-- **The rule of simulation.** A program that makes no other requests ends the same way. -/
theorem Simulates.run {h : Handler S σ} {h' : Handler S τ} {R : σ → τ → Prop} {P : S.Req → Prop}
    (hsim : Simulates h h' R P) {p : Prog S E α} (hp : p.Only P) {s : σ} {t : τ} (hR : R s t) :
    (run h p s).1 = (run h' p t).1 ∧ R (run h p s).2 (run h' p t).2 := by
  induction p generalizing s t with
  | call r k ih =>
      obtain ⟨hrep, hnext⟩ := hsim r hp.1 s t hR
      have htail := ih (h r s).1 (hp.2 _) hnext
      simp only [Interaction.run, ← hrep]
      exact htail
  | ret | raise | abort | cut => exact ⟨rfl, hR⟩

/-- Of a call whose program is run. -/
theorem Handler.via_ok {h : Handler T σ} {impl : (r : S.Req) → Prog T F (S.Rep r)}
    {lost : (r : S.Req) → S.Rep r} {r : S.Req} {x : S.Rep r} {s s' : σ}
    (hrun : run h (impl r) s = (.ok x, s')) : h.via impl lost r s = (x, s') := by
  rw [Handler.via, hrun]

/-- Of one whose program does not return. -/
theorem Handler.via_lost {h : Handler T σ} {impl : (r : S.Req) → Prog T F (S.Rep r)}
    {lost : (r : S.Req) → S.Rep r} {r : S.Req} {o : Outcome F (S.Rep r)} {s s' : σ}
    (hrun : run h (impl r) s = (o, s')) (ho : ∀ x, o ≠ .ok x) :
    h.via impl lost r s = (lost r, s') := by
  rw [Handler.via, hrun]
  cases o with
  | ok x => exact absurd rfl (ho x)
  | error | abort | cut => rfl

/-- **The rule of a call.** -/
theorem wp_via {v : Env T σ} {guard : σ → S.Req → Prop} {impl : (r : S.Req) → Prog T F (S.Rep r)}
    {Q : Outcome E α → σ → Prop} {r : S.Req} {k : S.Rep r → Prog S E α} {s : σ}
    {R : Outcome F (S.Rep r) → σ → Prop} (hguard : guard s r) (himpl : wp v R (impl r) s)
    (hk : ∀ x s', R (.ok x) s' → wp (v.via guard impl) Q (k x) s') :
    wp (v.via guard impl) Q (.call r k) s := by
  refine ⟨⟨hguard, wp_mono (fun _ _ _ => trivial) himpl⟩, fun x s' hx => ?_⟩
  exact hk x s' (wp_may himpl hx)

/-- Of a call that keeps an invariant, and what follows it. -/
theorem Keeps.wp_via {v : Env T σ} {I : σ → Prop} {guard : σ → S.Req → Prop}
    {impl : (r : S.Req) → Prog T F (S.Rep r)} {Q : Outcome E α → σ → Prop} {r : S.Req}
    {k : S.Rep r → Prog S E α} {s : σ} (h : Keeps v I (impl r)) (hguard : guard s r) (hs : I s)
    (hk : ∀ x s', I s' → wp (v.via guard impl) Q (k x) s') :
    wp (v.via guard impl) Q (.call r k) s :=
  Interaction.wp_via hguard (h s hs) fun x s' hx => hk x s' hx

/-- What a program can return is known besides. -/
theorem wp_returns {v : Env S σ} {Q : Outcome E α → σ → Prop} {P : α → Prop} {p : Prog S E α}
    {s : σ} (hp : wp v Q p s) (hP : Returns P p) :
    wp v (fun o s' => Q o s' ∧ ∀ a, o = .ok a → P a) p s := by
  induction p generalizing s with
  | ret a => exact ⟨hp, hP ()⟩
  | call r k ih => exact ⟨hp.1, fun x s' hx => ih x (hp.2 x s' hx) fun _ => (hP ()).2 x () trivial⟩
  | raise | abort | cut => exact ⟨hp, nofun⟩

theorem Keeps.returns {v : Env S σ} {I : σ → Prop} {P : α → Prop} {p : Prog S E α}
    (hp : Keeps v I p) (hP : Returns P p) {s : σ} (hs : I s) :
    wp v (fun o s' => AtEnd I o s' ∧ ∀ a, o = .ok a → P a) p s :=
  wp_returns (hp s hs) hP

/-- **The rule of a program over programs.** What each of the calls keeps, a program that
makes these calls keeps. -/
theorem Keeps.via {v : Env T σ} {I : σ → Prop} {guard : σ → S.Req → Prop}
    {impl : (r : S.Req) → Prog T F (S.Rep r)} {P : S.Req → Prop} {p : Prog S E α} (hp : p.Only P)
    (hguard : ∀ r, P r → ∀ s, I s → guard s r) (h : ∀ r, P r → Keeps v I (impl r)) :
    Keeps (v.via guard impl) I p := by
  refine .of_only hp fun r hr s hs => ⟨⟨hguard r hr s hs, ?_⟩, fun x s' hx => ?_⟩
  · exact wp_mono (fun _ _ _ => trivial) (h r hr s hs)
  · exact wp_may (h r hr s hs) hx

end Interaction
