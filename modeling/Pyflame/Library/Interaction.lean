import Mathlib.Tactic.Common
import Mathlib.Data.Nat.Notation

/-!
Programs that talk to an environment they do not control.

A program is a tree: it has ended, or it issues a request and goes on
with whatever reply it gets. Nothing is said here about what the replies
are. That is the business of an environment, and it comes in two forms.
A `Handler` answers every request in one definite way and is what one
runs; an `Env` only says which answers are possible, and `wp` asks that
all of them lead to the postcondition.

A loop has no finite tree. It is cut off after a number of passes that
the caller supplies, and a program that was cut off has no outcome at
all, so every statement about outcomes is one about the runs that end.
-/

namespace Interaction

/-- The requests a program may issue, and the type of the reply to each. -/
structure Signature where
  Req : Type
  Rep : Req → Type

/-- A program over the signature `S` that may raise exceptions of type `E`
and returns an `α`. -/
inductive Prog (S : Signature) (E α : Type) : Type
  | ret (a : α)
  | raise (e : E)
  /-- A failed assertion: no handler of the program sees it. -/
  | abort
  /-- A loop that was not given enough passes. -/
  | cut
  | call (r : S.Req) (k : S.Rep r → Prog S E α)

/-- How a run ends. -/
inductive Outcome (E α : Type) : Type
  | ok (a : α)
  | error (e : E)
  | abort
  | cut
  deriving DecidableEq

variable {S T : Signature} {E α β σ τ : Type}

namespace Prog

def bind : Prog S E α → (α → Prog S E β) → Prog S E β
  | .ret a, f => f a
  | .raise e, _ => .raise e
  | .abort, _ => .abort
  | .cut, _ => .cut
  | .call r k, f => .call r fun x => (k x).bind f

def handle : Prog S E α → (E → Prog S E α) → Prog S E α
  | .ret a, _ => .ret a
  | .raise e, f => f e
  | .abort, _ => .abort
  | .cut, _ => .cut
  | .call r k, f => .call r fun x => (k x).handle f

instance : Monad (Prog S E) where
  pure := .ret
  bind := bind

instance : MonadExcept E (Prog S E) where
  throw := .raise
  tryCatch := handle

/-- Issue one request and return its reply. -/
def ask (r : S.Req) : Prog S E (S.Rep r) := .call r .ret

/-- Run a program and return its exception instead of raising it. -/
def attempt (p : Prog S E α) : Prog S E (Except E α) :=
  (p.bind fun a => .ret (.ok a)).handle fun e => .ret (.error e)

/-- An endless loop: the body says by `inl` to go round again and by `inr`
to leave with a result. The number is the passes it is given. -/
def forever (body : β → Prog S E (β ⊕ α)) : ℕ → β → Prog S E α
  | 0, _ => .cut
  | n + 1, b => (body b).bind fun
      | .inl b' => forever body n b'
      | .inr a => .ret a

/-- Every request the program may issue is of a given kind. -/
def Only (P : S.Req → Prop) : Prog S E α → Prop
  | .call r k => P r ∧ ∀ x, (k x).Only P
  | .ret _ | .raise _ | .abort | .cut => True

/-- The program asks for nothing. -/
abbrev Quiet (p : Prog S E α) : Prop := p.Only fun _ => False

/-- The value of a program that returns without asking for anything. -/
def result? : Prog S E α → Option α
  | .ret a => some a
  | .raise _ | .abort | .cut | .call _ _ => none

theorem eq_ret_of_result {p : Prog S E α} {a : α} (h : p.result? = some a) : p = .ret a := by
  cases p with
  | ret b => exact congrArg Prog.ret (Option.some.inj h)
  | raise | abort | cut | call => contradiction

@[simp] theorem pure_eq (a : α) : (pure a : Prog S E α) = .ret a := rfl
@[simp] theorem bind_eq (p : Prog S E α) (f : α → Prog S E β) : (p >>= f) = p.bind f := rfl
@[simp] theorem throw_eq (e : E) : (throw e : Prog S E α) = .raise e := rfl
@[simp] theorem tryCatch_eq (p : Prog S E α) (f : E → Prog S E α) :
    tryCatch p f = p.handle f := rfl

@[simp] theorem ret_bind (a : α) (f : α → Prog S E β) : (ret a : Prog S E α).bind f = f a := rfl
@[simp] theorem raise_bind (e : E) (f : α → Prog S E β) :
    (raise e : Prog S E α).bind f = .raise e := rfl
@[simp] theorem abort_bind (f : α → Prog S E β) : (abort : Prog S E α).bind f = .abort := rfl
@[simp] theorem cut_bind (f : α → Prog S E β) : (cut : Prog S E α).bind f = .cut := rfl
@[simp] theorem call_bind (r : S.Req) (k : S.Rep r → Prog S E α) (f : α → Prog S E β) :
    (call r k).bind f = .call r fun x => (k x).bind f := rfl
@[simp] theorem ask_bind (r : S.Req) (f : S.Rep r → Prog S E β) :
    (ask r : Prog S E (S.Rep r)).bind f = .call r f := rfl

theorem bind_assoc {γ : Type} (p : Prog S E α) (f : α → Prog S E β) (g : β → Prog S E γ) :
    (p.bind f).bind g = p.bind fun a => (f a).bind g := by
  induction p with
  | call r k ih => simp only [bind]; congr 1; funext x; exact ih x
  | ret | raise | abort | cut => rfl

namespace Only

variable {P Q : S.Req → Prop}

theorem mono {p : Prog S E α} (hp : p.Only P) (h : ∀ r, P r → Q r) : p.Only Q := by
  induction p with
  | call r k ih => exact ⟨h r hp.1, fun x => ih x (hp.2 x)⟩
  | ret | raise | abort | cut => trivial

/-- A program that asks for nothing asks only for what one likes. -/
theorem of_quiet {p : Prog S E α} (hp : p.Quiet) : p.Only P := hp.mono fun _ => False.elim

theorem ask {r : S.Req} (h : P r) : (Prog.ask r : Prog S E (S.Rep r)).Only P := ⟨h, fun _ => trivial⟩

theorem bind {p : Prog S E α} {f : α → Prog S E β} (hp : p.Only P) (hf : ∀ a, (f a).Only P) :
    (p.bind f).Only P := by
  induction p with
  | ret a => exact hf a
  | call r k ih => exact ⟨hp.1, fun x => ih x (hp.2 x)⟩
  | raise | abort | cut => trivial

theorem ite {c : Prop} [Decidable c] {p q : Prog S E α} (hp : p.Only P) (hq : q.Only P) :
    (if c then p else q).Only P := by
  split_ifs
  · exact hp
  · exact hq

theorem handle {p : Prog S E α} {f : E → Prog S E α} (hp : p.Only P) (hf : ∀ e, (f e).Only P) :
    (p.handle f).Only P := by
  induction p with
  | raise e => exact hf e
  | call r k ih => exact ⟨hp.1, fun x => ih x (hp.2 x)⟩
  | ret | abort | cut => trivial

theorem attempt {p : Prog S E α} (hp : p.Only P) : p.attempt.Only P :=
  handle (hp.bind fun _ => by trivial) fun _ => by trivial

theorem forever {body : β → Prog S E (β ⊕ α)} (h : ∀ b, (body b).Only P) (n : ℕ) (b : β) :
    (Prog.forever body n b).Only P := by
  induction n generalizing b with
  | zero => trivial
  | succ n ih =>
      refine (h b).bind fun c => ?_
      cases c with
      | inl b' => exact ih b'
      | inr a => trivial

theorem foldlM {f : α → β → Prog S E α} (h : ∀ a b, (f a b).Only P) (l : List β) (a : α) :
    (l.foldlM f a).Only P := by
  induction l generalizing a with
  | nil => trivial
  | cons b l ih => exact (h a b).bind ih

end Only

theorem bind_eq_ret {p : Prog S E α} {f : α → Prog S E β} {b : β} :
    p.bind f = .ret b ↔ ∃ a, p = .ret a ∧ f a = .ret b := by
  cases p with
  | ret a => simp
  | raise | abort | cut | call => simp [bind]

end Prog

/-! ### Running against a handler -/

/-- An environment that answers every request in one way. -/
def Handler (S : Signature) (σ : Type) : Type := (r : S.Req) → σ → S.Rep r × σ

/-- The run of a program from an environment state: how it ends, and the
state it leaves. -/
def run (h : Handler S σ) : Prog S E α → σ → Outcome E α × σ
  | .ret a, s => (.ok a, s)
  | .raise e, s => (.error e, s)
  | .abort, s => (.abort, s)
  | .cut, s => (.cut, s)
  | .call r k, s => run h (k (h r s).1) (h r s).2

/-- One exchange with the environment: the state it met, the request and
the reply. -/
structure Exchange (S : Signature) (σ : Type) where
  state : σ
  req : S.Req
  rep : S.Rep req

/-- The exchanges of a run, in order. -/
def trace (h : Handler S σ) : Prog S E α → σ → List (Exchange S σ)
  | .call r k, s => ⟨s, r, (h r s).1⟩ :: trace h (k (h r s).1) (h r s).2
  | .ret _, _ | .raise _, _ | .abort, _ | .cut, _ => []

/-- The handler that gives the same reply to the same request every time. -/
def answer (g : (r : S.Req) → S.Rep r) : Handler S Unit := fun r u => (g r, u)

section Run

variable (h : Handler S σ)

@[simp] theorem run_ret (a : α) (s : σ) : run h (.ret a : Prog S E α) s = (.ok a, s) := rfl
@[simp] theorem run_raise (e : E) (s : σ) :
    run h (.raise e : Prog S E α) s = (.error e, s) := rfl
@[simp] theorem run_call (r : S.Req) (k : S.Rep r → Prog S E α) (s : σ) :
    run h (.call r k) s = run h (k (h r s).1) (h r s).2 := rfl

theorem run_bind (p : Prog S E α) (f : α → Prog S E β) (s : σ) :
    run h (p.bind f) s =
      match run h p s with
      | (.ok a, s') => run h (f a) s'
      | (.error e, s') => (.error e, s')
      | (.abort, s') => (.abort, s')
      | (.cut, s') => (.cut, s') := by
  induction p generalizing s with
  | call r k ih => exact ih _ _
  | ret | raise | abort | cut => rfl

theorem run_bind_ok {p : Prog S E α} {s s' : σ} {a : α} (hp : run h p s = (.ok a, s'))
    (f : α → Prog S E β) : run h (p.bind f) s = run h (f a) s' := by
  rw [run_bind, hp]

theorem run_bind_error {p : Prog S E α} {s s' : σ} {e : E} (hp : run h p s = (.error e, s'))
    (f : α → Prog S E β) : run h (p.bind f) s = (.error e, s') := by
  rw [run_bind, hp]

theorem run_handle_ok {p : Prog S E α} {s s' : σ} {a : α} (hp : run h p s = (.ok a, s'))
    (f : E → Prog S E α) : run h (p.handle f) s = (.ok a, s') := by
  induction p generalizing s with
  | call r k ih => exact ih (h r s).1 hp
  | ret => exact hp
  | raise | abort | cut => cases hp

theorem run_attempt (p : Prog S E α) (s : σ) :
    run h p.attempt s =
      match run h p s with
      | (.ok a, s') => (.ok (.ok a), s')
      | (.error e, s') => (.ok (.error e), s')
      | (.abort, s') => (.abort, s')
      | (.cut, s') => (.cut, s') := by
  induction p generalizing s with
  | call r k ih => exact ih (h r s).1 (h r s).2
  | ret | raise | abort | cut => rfl

/-- How the first part of a sequence comes to its result does not matter to the rest. -/
theorem run_bind_congr {p q : Prog S E α} {s : σ} (hpq : run h p s = run h q s)
    (f : α → Prog S E β) : run h (p.bind f) s = run h (q.bind f) s := by
  rw [run_bind, run_bind, hpq]

theorem run_bind_eq_ok {h : Handler S σ} {p : Prog S E α} {f : α → Prog S E β} {s : σ} {b : β}
    (hrun : (run h (p.bind f) s).1 = .ok b) :
    ∃ a s', run h p s = (.ok a, s') ∧ (run h (f a) s').1 = .ok b := by
  rw [run_bind] at hrun
  generalize run h p s = r at hrun ⊢
  obtain ⟨a | e | _ | _, s'⟩ := r
  · exact ⟨a, s', rfl, hrun⟩
  all_goals contradiction

/-- The exchanges of a sequence: those of its first part, and if that returns,
those of the rest. -/
theorem trace_bind (p : Prog S E α) (f : α → Prog S E β) (s : σ) :
    trace h (p.bind f) s = trace h p s ++
      match run h p s with
      | (.ok a, s') => trace h (f a) s'
      | _ => [] := by
  induction p generalizing s with
  | call r k ih =>
      rw [Prog.call_bind, trace, trace, ih, List.cons_append]
      rfl
  | ret | raise | abort | cut => rfl

/-- A run all of whose replies are those of one fixed table of answers has
the outcome of the run against that table. -/
theorem run_eq_answer (g : (r : S.Req) → S.Rep r) (p : Prog S E α) (s : σ)
    (hg : ∀ x ∈ trace h p s, x.rep = g x.req) :
    (run h p s).1 = (run (answer g) p ()).1 := by
  induction p generalizing s with
  | call r k ih =>
      have hr : (h r s).1 = g r := hg ⟨s, r, (h r s).1⟩ (by simp [trace])
      simp only [run_call, answer]
      rw [ih _ _ fun x hx => hg x (by simp [trace, hx]), hr]
  | ret | raise | abort | cut => rfl

end Run

/-! ### Every run an environment allows -/

/-- An environment as a relation: the replies possible in a state with the
state each leads to, and the requests that may be issued in it. -/
structure Env (S : Signature) (σ : Type) where
  step : σ → (r : S.Req) → S.Rep r → σ → Prop
  permits : σ → S.Req → Prop

/-- The environment in which anything may be replied and anything asked. -/
def Env.free (S : Signature) : Env S Unit := ⟨fun _ _ _ _ => True, fun _ _ => True⟩

/-- Every run of the program from `s` issues permitted requests only, and
if it ends, ends as `Q` says. -/
def wp (v : Env S σ) (Q : Outcome E α → σ → Prop) : Prog S E α → σ → Prop
  | .ret a, s => Q (.ok a) s
  | .raise e, s => Q (.error e) s
  | .abort, s => Q .abort s
  | .cut, s => Q .cut s
  | .call r k, s => v.permits s r ∧ ∀ x s', v.step s r x s' → wp v Q (k x) s'

/-- The postcondition of the first part of a sequence: `f` where it returns,
`Q` where it does not. -/
def onOk (Q : Outcome E β → σ → Prop) (f : α → σ → Prop) : Outcome E α → σ → Prop
  | .ok a, s => f a s
  | .error e, s => Q (.error e) s
  | .abort, s => Q .abort s
  | .cut, s => Q .cut s

/-- The postcondition of the guarded part of a `try`: `f` where it raises,
`Q` where it does not. -/
def onError (Q : Outcome E α → σ → Prop) (f : E → σ → Prop) : Outcome E α → σ → Prop
  | .ok a, s => Q (.ok a) s
  | .error e, s => f e s
  | .abort, s => Q .abort s
  | .cut, s => Q .cut s

section Rules

variable {v : Env S σ} {Q Q' : Outcome E α → σ → Prop} {s : σ}

@[simp] theorem wp_ret {a : α} : wp v Q (.ret a) s ↔ Q (.ok a) s := Iff.rfl
@[simp] theorem wp_raise {e : E} : wp v Q (.raise e) s ↔ Q (.error e) s := Iff.rfl
@[simp] theorem wp_abort : wp v Q (.abort : Prog S E α) s ↔ Q .abort s := Iff.rfl
@[simp] theorem wp_cut : wp v Q (.cut : Prog S E α) s ↔ Q .cut s := Iff.rfl
@[simp] theorem wp_call {r : S.Req} {k : S.Rep r → Prog S E α} :
    wp v Q (.call r k) s ↔ v.permits s r ∧ ∀ x s', v.step s r x s' → wp v Q (k x) s' := Iff.rfl

@[simp] theorem onOk_ok {R : Outcome E β → σ → Prop} {f : α → σ → Prop} {a : α} :
    onOk R f (.ok a) s ↔ f a s := Iff.rfl
@[simp] theorem onOk_error {R : Outcome E β → σ → Prop} {f : α → σ → Prop} {e : E} :
    onOk R f (.error e) s ↔ R (.error e) s := Iff.rfl
@[simp] theorem onOk_abort {R : Outcome E β → σ → Prop} {f : α → σ → Prop} :
    onOk R f .abort s ↔ R .abort s := Iff.rfl
@[simp] theorem onOk_cut {R : Outcome E β → σ → Prop} {f : α → σ → Prop} :
    onOk R f .cut s ↔ R .cut s := Iff.rfl
@[simp] theorem onError_ok {f : E → σ → Prop} {a : α} :
    onError Q f (.ok a) s ↔ Q (.ok a) s := Iff.rfl
@[simp] theorem onError_error {f : E → σ → Prop} {e : E} :
    onError Q f (.error e) s ↔ f e s := Iff.rfl
@[simp] theorem onError_abort {f : E → σ → Prop} :
    onError Q f .abort s ↔ Q .abort s := Iff.rfl
@[simp] theorem onError_cut {f : E → σ → Prop} :
    onError Q f .cut s ↔ Q .cut s := Iff.rfl

/-- Consequence. -/
theorem wp_mono {p : Prog S E α} (hQ : ∀ o s, Q o s → Q' o s) (hp : wp v Q p s) :
    wp v Q' p s := by
  induction p generalizing s with
  | call r k ih => exact ⟨hp.1, fun x s' hx => ih x (hp.2 x s' hx)⟩
  | ret | raise | abort | cut => exact hQ _ _ hp

theorem wp_and {p : Prog S E α} (hp : wp v Q p s) (hp' : wp v Q' p s) :
    wp v (fun o s' => Q o s' ∧ Q' o s') p s := by
  induction p generalizing s with
  | call r k ih => exact ⟨hp.1, fun x s' hx => ih x (hp.2 x s' hx) (hp'.2 x s' hx)⟩
  | ret | raise | abort | cut => exact ⟨hp, hp'⟩

/-- What holds in an environment holds in one that does less and permits more. -/
theorem wp_env {v' : Env S σ} {p : Prog S E α}
    (hstep : ∀ s r x s', v'.step s r x s' → v.step s r x s')
    (hpermits : ∀ s r, v.permits s r → v'.permits s r) (hp : wp v Q p s) : wp v' Q p s := by
  induction p generalizing s with
  | call r k ih => exact ⟨hpermits s r hp.1, fun x s' hx => ih x (hp.2 x s' (hstep s r x s' hx))⟩
  | ret | raise | abort | cut => exact hp

/-- Sequence. -/
theorem wp_bind {p : Prog S E β} {f : β → Prog S E α} :
    wp v Q (p.bind f) s ↔ wp v (onOk Q fun b => wp v Q (f b)) p s := by
  induction p generalizing s with
  | call r k ih => simp only [Prog.call_bind, wp_call, ih]
  | ret | raise | abort | cut => rfl

/-- Exception handling. -/
theorem wp_handle {p : Prog S E α} {f : E → Prog S E α} :
    wp v Q (p.handle f) s ↔ wp v (onError Q fun e => wp v Q (f e)) p s := by
  induction p generalizing s with
  | call r k ih => simp only [Prog.handle, wp_call, ih]
  | ret | raise | abort | cut => rfl

/-- Catching everything. -/
theorem wp_attempt {p : Prog S E β} {Q : Outcome E (Except E β) → σ → Prop} :
    wp v Q p.attempt s ↔ wp v (fun o s' => match o with
      | .ok b => Q (.ok (.ok b)) s'
      | .error e => Q (.ok (.error e)) s'
      | .abort => Q .abort s'
      | .cut => Q .cut s') p s := by
  induction p generalizing s with
  | call r k ih => exact and_congr_right fun _ => forall₃_congr fun x _ _ => ih x
  | ret | raise | abort | cut => rfl

/-- Sequence, with what is known of the first part stated separately. -/
theorem wp_bind_of {p : Prog S E β} {f : β → Prog S E α} {R : Outcome E β → σ → Prop}
    (hp : wp v R p s) (hR : ∀ o s, R o s → onOk Q (fun b => wp v Q (f b)) o s) :
    wp v Q (p.bind f) s :=
  wp_bind.mpr (wp_mono hR hp)

/-- **The loop rule.** An invariant kept by every pass that goes round again,
and giving the postcondition where a pass leaves, gives the postcondition
of the loop. -/
theorem wp_forever {body : β → Prog S E (β ⊕ α)} (I : β → σ → Prop)
    (hcut : ∀ b s, I b s → Q .cut s)
    (hbody : ∀ b s, I b s → wp v (onOk Q fun c s' => match c with
      | .inl b' => I b' s'
      | .inr a => Q (.ok a) s') (body b) s)
    (n : ℕ) (b : β) (hI : I b s) : wp v Q (Prog.forever body n b) s := by
  induction n generalizing b s with
  | zero => exact hcut b s hI
  | succ n ih =>
      refine wp_bind_of (hbody b s hI) fun o s' ho => ?_
      cases o with
      | ok c =>
          cases c with
          | inl b' => exact ih b' ho
          | inr a => exact ho
      | error | abort | cut => exact ho

/-- A loop over a list, with an invariant indexed by what is left of it. -/
theorem wp_forM {R : Outcome E PUnit → σ → Prop} {l : List β} {f : β → Prog S E PUnit}
    (I : List β → σ → Prop) (hnil : ∀ s, I [] s → R (.ok ⟨⟩) s)
    (hcons : ∀ b l s, I (b :: l) s → wp v (onOk R fun _ => I l) (f b) s)
    (hI : I l s) : wp v R (l.forM f) s := by
  induction l generalizing s with
  | nil => exact hnil s hI
  | cons b l ih =>
      refine wp_bind_of (hcons b l s hI) fun o s' ho => ?_
      cases o with
      | ok => exact ih ho
      | error | abort | cut => exact ho

/-- What holds of every run holds of a run in which the handler does what the
environment allows, and everything asked for in it is permitted. -/
theorem wp_trace {p : Prog S E α} {h : Handler S σ}
    (hh : ∀ x ∈ trace h p s, v.step x.state x.req (h x.req x.state).1 (h x.req x.state).2)
    (hp : wp v Q p s) :
    Q (run h p s).1 (run h p s).2 ∧ ∀ x ∈ trace h p s, v.permits x.state x.req := by
  induction p generalizing s with
  | call r k ih =>
      obtain ⟨hstep, hrest⟩ := List.forall_mem_cons.mp hh
      obtain ⟨hrun, hpermits⟩ := ih _ hrest (hp.2 _ _ hstep)
      exact ⟨hrun, List.forall_mem_cons.mpr ⟨hp.1, hpermits⟩⟩
  | ret | raise | abort | cut => exact ⟨hp, nofun⟩

theorem wp_run {p : Prog S E α} {h : Handler S σ}
    (hh : ∀ s r, v.step s r (h r s).1 (h r s).2) (hp : wp v Q p s) :
    Q (run h p s).1 (run h p s).2 :=
  (wp_trace (fun x _ => hh x.state x.req) hp).1

end Rules

/-! ### Logs -/

/-- The requests of a run with their replies, in order. -/
abbrev Log (S : Signature) : Type := List ((r : S.Req) × S.Rep r)

def logOf (tr : List (Exchange S σ)) : Log S := tr.map fun x => ⟨x.req, x.rep⟩

theorem logOf_append (tr tr' : List (Exchange S σ)) : logOf (tr ++ tr') = logOf tr ++ logOf tr' :=
  List.map_append

/-- The environment in which anything may be replied and everything is written
down. -/
def Env.logging (S : Signature) : Env S (Log S) :=
  ⟨fun log r x log' => log' = log ++ [⟨r, x⟩], fun _ _ => True⟩

/-- What holds of every log holds of the log of a run. -/
theorem wp_logging {p : Prog S E α} {Q : Outcome E α → Log S → Prop} {log : Log S}
    (hp : wp (Env.logging S) Q p log) (h : Handler S σ) (s : σ) :
    Q (run h p s).1 (log ++ logOf (trace h p s)) := by
  induction p generalizing s log with
  | call r k ih =>
      have hrest := ih (h r s).1 (hp.2 (h r s).1 _ rfl) (h r s).2
      rw [List.append_assoc] at hrest
      exact hrest
  | ret | raise | abort | cut =>
      rw [trace, logOf, List.map_nil, List.append_nil]
      exact hp

/-- A log only grows, by what the program may ask for. -/
theorem wp_log {P : S.Req → Prop} {p : Prog S E α} (hp : p.Only P) (log : Log S) :
    wp (Env.logging S) (fun _ log' => ∃ more, log' = log ++ more ∧ ∀ x ∈ more, P x.1) p log := by
  induction p generalizing log with
  | call r k ih =>
      refine ⟨trivial, ?_⟩
      rintro x _ rfl
      refine wp_mono ?_ (ih x (hp.2 x) (log ++ [⟨r, x⟩]))
      rintro _ _ ⟨more, rfl, hmore⟩
      refine ⟨⟨r, x⟩ :: more, by simp, List.forall_mem_cons.mpr ⟨hp.1, hmore⟩⟩
  | ret | raise | abort | cut => exact ⟨[], by simp, nofun⟩

/-! ### What a program can return -/

/-- A value the program returns satisfies `P`, from any state. -/
def Ensures (v : Env S σ) (P : α → Prop) (p : Prog S E α) : Prop :=
  ∀ s, wp v (fun o _ => ∀ a, o = .ok a → P a) p s

namespace Ensures

variable {v : Env S σ} {P : α → Prop}

theorem ret {a : α} (h : P a) : Ensures v P (.ret a : Prog S E α) := by
  rintro _ _ ⟨⟩
  exact h

theorem raise {e : E} : Ensures v P (.raise e : Prog S E α) := fun _ _ h => nomatch h
theorem abort : Ensures v P (.abort : Prog S E α) := fun _ _ h => nomatch h
theorem cut : Ensures v P (.cut : Prog S E α) := fun _ _ h => nomatch h

/-- Of one request, what the environment says of its reply. -/
theorem ask {r : S.Req} {P : S.Rep r → Prop} (hpermits : ∀ s, v.permits s r)
    (h : ∀ s x s', v.step s r x s' → P x) : Ensures v P (Prog.ask r : Prog S E (S.Rep r)) := by
  refine fun s => ⟨hpermits s, ?_⟩
  rintro x s' hx _ ⟨⟩
  exact h s x s' hx

theorem anything (hpermits : ∀ s r, v.permits s r) (p : Prog S E α) :
    Ensures v (fun _ => True) p := by
  induction p with
  | call r k ih => exact fun s => ⟨hpermits s r, fun x s' _ => ih x s'⟩
  | ret | raise | abort | cut => exact fun _ _ _ => trivial

theorem mono {Q : α → Prop} {p : Prog S E α} (hp : Ensures v Q p) (h : ∀ a, Q a → P a) :
    Ensures v P p :=
  fun s => wp_mono (fun _ _ ho a ha => h a (ho a ha)) (hp s)

theorem bind_of {Q : β → Prop} {p : Prog S E β} {f : β → Prog S E α} (hp : Ensures v Q p)
    (hf : ∀ b, Q b → Ensures v P (f b)) : Ensures v P (p.bind f) := by
  refine fun s => wp_bind_of (hp s) fun o s ho => ?_
  cases o with
  | ok b => exact hf b (ho b rfl) s
  | error | abort | cut => exact fun _ h => nomatch h

theorem forever {body : β → Prog S E (β ⊕ α)} {I : β → Prop}
    (hbody : ∀ b, I b → Ensures v (Sum.elim I P) (body b)) (n : ℕ) {b : β} (hb : I b) :
    Ensures v P (Prog.forever body n b) := by
  refine fun s => wp_forever (fun b _ => I b) (fun _ _ _ _ h => nomatch h) (fun b s hb => ?_) n b hb
  refine wp_mono (fun o s ho => ?_) (hbody b hb s)
  cases o with
  | ok c =>
      cases c with
      | inl b' => exact ho _ rfl
      | inr a =>
          rintro _ ⟨⟩
          exact ho (.inr a) rfl
  | error | abort | cut => exact fun _ h => nomatch h

/-- A program that asks for nothing is its own outcome. -/
theorem of_quiet {p : Prog S E α} (hp : p.Quiet) : Ensures v (p = .ret ·) p := by
  intro s
  cases p with
  | ret b => exact fun a ha => congrArg Prog.ret (Outcome.ok.inj ha)
  | call r k => exact hp.1.elim
  | raise | abort | cut => exact fun a ha => nomatch ha

/-- The value of a program that asks for nothing is the one it has. -/
theorem bind_quiet {p : Prog S E β} {f : β → Prog S E α} (hp : p.Quiet)
    (h : ∀ b, p = .ret b → Ensures v P (f b)) : Ensures v P (p.bind f) := by
  cases p with
  | ret b => exact h b rfl
  | raise => exact .raise
  | abort => exact .abort
  | cut => exact .cut
  | call => exact absurd hp.1 id

end Ensures

/-- Whatever is replied, a value the program returns satisfies `P`. -/
def Returns (P : α → Prop) (p : Prog S E α) : Prop := Ensures (Env.free S) P p

namespace Returns

variable {P : α → Prop}

theorem bind {p : Prog S E β} {f : β → Prog S E α} (hf : ∀ b, Returns P (f b)) :
    Returns P (p.bind f) :=
  (Ensures.anything (fun _ _ => trivial) p).bind_of fun b _ => hf b

/-- The value is known where the exceptions are caught. -/
theorem attempt {p : Prog S E α} (hp : Returns P p) :
    Returns (fun r => ∀ a, r = .ok a → P a) p.attempt := by
  refine fun s => wp_attempt.mpr (wp_mono (fun o s' ho => ?_) (hp s))
  cases o with
  | ok a =>
      rintro _ ⟨⟩ _ ⟨⟩
      exact ho a rfl
  | error => rintro _ ⟨⟩ _ ⟨⟩
  | abort | cut => exact nofun

/-- In particular the value it returns in a run. -/
theorem of_run {p : Prog S E α} (hp : Returns P p) (h : Handler S σ) (s : σ) {a : α}
    (ha : (run h p s).1 = .ok a) : P a := by
  induction p generalizing s with
  | call r k ih => exact ih _ (fun _ => (hp ()).2 _ _ trivial) _ ha
  | ret | raise | abort | cut => exact hp () a ha

end Returns

/-- Of a sequence, where what follows depends on what the first part can return. -/
theorem Prog.Only.bind_of {P : S.Req → Prop} {Q : β → Prop} {p : Prog S E β} {f : β → Prog S E α}
    (hp : p.Only P) (hQ : Returns Q p) (hf : ∀ b, Q b → (f b).Only P) : (p.bind f).Only P := by
  induction p with
  | ret b => exact hf b (hQ () b rfl)
  | call r k ih => exact ⟨hp.1, fun x => ih x (hp.2 x) fun _ => (hQ ()).2 x () trivial⟩
  | raise | abort | cut => trivial

/-- **The frame rule.** A program that only issues requests that leave the environment
alone leaves it alone. -/
theorem wp_only {v : Env S σ} {F : S.Req → Prop} {P : α → Prop} {p : Prog S E α}
    (hF : ∀ r, F r → ∀ s, v.permits s r ∧ ∀ x s', v.step s r x s' → s' = s)
    (hp : p.Only F) (hP : Returns P p) (s : σ) :
    wp v (fun o s' => s' = s ∧ ∀ a, o = .ok a → P a) p s := by
  induction p with
  | call r k ih =>
      refine ⟨(hF r hp.1 s).1, fun x s' hx => ?_⟩
      obtain rfl := (hF r hp.1 s).2 x s' hx
      exact ih x (hp.2 x) fun _ => (hP ()).2 x () trivial
  | ret | raise | abort | cut => exact ⟨rfl, hP ()⟩

end Interaction
