import Mathlib.Tactic.Common

/-!
# Interruptible programs over an effectful device

A program issues calls one at a time and continues on each reply.  A device
executes a call and may also be caught in the middle of one.
-/

namespace Crash

open List

inductive Program (Call : Type) (Reply : Call → Type) (α : Type) : Type where
  | done (value : α) : Program Call Reply α
  | call (request : Call) (next : Reply request → Program Call Reply α) :
      Program Call Reply α

namespace Program

variable {Call : Type} {Reply : Call → Type} {α β γ : Type}

def bind : Program Call Reply α → (α → Program Call Reply β) → Program Call Reply β
  | .done value, f => f value
  | .call request next, f => .call request fun reply => (next reply).bind f

instance : Monad (Program Call Reply) where
  pure := .done
  bind := bind

def perform (request : Call) : Program Call Reply (Reply request) :=
  .call request .done

@[simp] theorem call_bind (request : Call) (next : Reply request → Program Call Reply α)
    (f : α → Program Call Reply β) :
    (Program.call request next >>= f) = .call request fun rep => next rep >>= f := rfl

end Program

/-- A device executes calls.  `torn` relates the state before a call to the
states in which an interruption in the middle of that call can leave it; an
atomic call has none. -/
structure Device (Call : Type) (Reply : Call → Type) (σ : Type) where
  exec : (request : Call) → σ → Reply request × σ
  torn : Call → σ → σ → Prop

namespace Device

variable {Call : Type} {Reply : Call → Type} {σ α β : Type}
variable (D : Device Call Reply σ)
variable {p : Program Call Reply α} {Q : α → σ → Prop} {C : σ → Prop} {s : σ}
  {f : α → Program Call Reply β}

def run : Program Call Reply α → σ → α × σ
  | .done value, s => (value, s)
  | .call request next, s => run (next (D.exec request s).1) (D.exec request s).2

/-- The states in which the device can be found when the program is stopped
after any prefix of its calls, also in the middle of a call. -/
inductive Stops : Program Call Reply α → σ → σ → Prop where
  | here (p : Program Call Reply α) (s : σ) : Stops p s s
  | inside {request : Call} {next : Reply request → Program Call Reply α} {s s' : σ} :
      D.torn request s s' → Stops (.call request next) s s'
  | later {request : Call} {next : Reply request → Program Call Reply α} {s s' : σ} :
      Stops (next (D.exec request s).1) (D.exec request s).2 s' →
      Stops (.call request next) s s'

/-- The complete run ends in `Q`, and every interruption leaves the device in
a state of `C`. -/
def wp : Program Call Reply α → (α → σ → Prop) → (σ → Prop) → σ → Prop
  | .done value, Q, C, s => C s ∧ Q value s
  | .call request next, Q, C, s =>
    C s ∧ (∀ s', D.torn request s s' → C s') ∧
      wp (next (D.exec request s).1) Q C (D.exec request s).2

@[simp] theorem run_done (val : α) (s : σ) :
    D.run (.done val : Program Call Reply α) s = (val, s) := rfl

@[simp] theorem run_call (request : Call) (next : Reply request → Program Call Reply α) (s : σ) :
    D.run (.call request next) s = D.run (next (D.exec request s).1) (D.exec request s).2 := rfl

theorem run_bind (p : Program Call Reply α) (f : α → Program Call Reply β) (s : σ) :
    D.run (p >>= f) s = D.run (f (D.run p s).1) (D.run p s).2 := by
  induction p generalizing s with
  | done val => rfl
  | call request next ih => exact ih _ _

variable {D}

theorem wp_crash (h : D.wp p Q C s) : C s := by
  cases p with
  | done val | call request next => exact h.1

variable {Q' : α → σ → Prop}

theorem wp_mono {C' : σ → Prop} (h : D.wp p Q C s) (hQ : ∀ a s, Q a s → Q' a s)
    (hC : ∀ s, C s → C' s) : D.wp p Q' C' s := by
  induction p generalizing s with
  | done val => exact ⟨hC _ h.1, hQ _ _ h.2⟩
  | call request next ih =>
    exact ⟨hC _ h.1, fun s' hs' => hC _ (h.2.1 s' hs'), ih _ h.2.2⟩

theorem wp_bind {Q : β → σ → Prop} :
    D.wp (p >>= f) Q C s ↔ D.wp p (fun a s => D.wp (f a) Q C s) C s := by
  induction p generalizing s with
  | done val => exact ⟨fun h => ⟨wp_crash h, h⟩, And.right⟩
  | call request next ih =>
    simp only [Program.call_bind, wp]
    rw [ih]

theorem wp_and {C' : σ → Prop} (h : D.wp p Q C s) (h' : D.wp p Q' C' s) :
    D.wp p (fun a s => Q a s ∧ Q' a s) (fun s => C s ∧ C' s) s := by
  induction p generalizing s with
  | done val => exact ⟨⟨h.1, h'.1⟩, h.2, h'.2⟩
  | call request next ih =>
    exact ⟨⟨h.1, h'.1⟩, fun s' hs' => ⟨h.2.1 s' hs', h'.2.1 s' hs'⟩, ih _ h.2.2 h'.2.2⟩

theorem wp_iff : D.wp p Q C s ↔ Q (D.run p s).1 (D.run p s).2 ∧ ∀ s', D.Stops p s s' → C s' := by
  induction p generalizing s with
  | done val =>
    constructor
    · rintro ⟨hC, hQ⟩
      refine ⟨hQ, fun s' hs' => ?_⟩
      cases hs' with
      | here => exact hC
    · rintro ⟨hQ, hC⟩
      exact ⟨hC s (.here _ s), hQ⟩
  | call request next ih =>
    simp only [wp, ih, run_call]
    constructor
    · rintro ⟨hC, hto, hQ, hla⟩
      refine ⟨hQ, fun s' hs' => ?_⟩
      cases hs' with
      | here => exact hC
      | inside ht => exact hto s' ht
      | later hl => exact hla s' hl
    · rintro ⟨hQ, hC⟩
      exact ⟨hC s (.here _ s), fun s' ht => hC s' (.inside ht), hQ, fun s' hl => hC s' (.later hl)⟩

theorem Stops.bind_right {s' : σ} (h : D.Stops (f (D.run p s).1) (D.run p s).2 s') :
    D.Stops (p >>= f) s s' := by
  induction p generalizing s with
  | done val => exact h
  | call request next ih => exact .later (ih _ h)

theorem Stops.run (p : Program Call Reply α) (s : σ) : D.Stops p s (D.run p s).2 := by
  induction p generalizing s with
  | done val => exact .here _ s
  | call request next ih => exact .later (ih _ _)

variable (D) in
/-- The state after the first `n` calls of a run. -/
def after : ℕ → Program Call Reply α → σ → σ
  | 0, _, s => s
  | _ + 1, .done _, s => s
  | n + 1, .call request next, s => after n (next (D.exec request s).1) (D.exec request s).2

theorem Stops.after (n : ℕ) (p : Program Call Reply α) (s : σ) : D.Stops p s (D.after n p s) := by
  induction n generalizing p s with
  | zero => exact .here p s
  | succ n ih =>
    cases p with
    | done val => exact .here _ s
    | call request next => exact .later (ih _ _)

end Device

/-! ## Fallible programs -/

abbrev Fallible (Call : Type) (Reply : Call → Type) (ε α : Type) :=
  ExceptT ε (Program Call Reply) α

section Fallible

variable {Call : Type} {Reply : Call → Type} {σ ε α β : Type}

def attempt (p : Fallible Call Reply ε α) : Fallible Call Reply ε (Except ε α) :=
  ExceptT.mk (p.run >>= fun result => pure (.ok result))

namespace Device

variable {D : Device Call Reply σ}
variable {a : α} {p : Fallible Call Reply ε α} {s' : σ}

variable (D) in
/-- The transformer of a fallible program: `Q` after a value, `E` after an
error, `C` at every interruption. -/
def wpe (p : Fallible Call Reply ε α) (Q : α → σ → Prop) (E : ε → σ → Prop)
    (C : σ → Prop) (s : σ) : Prop :=
  D.wp p.run (fun result s => match result with
    | .ok a => Q a s
    | .error e => E e s) C s

variable {Q : α → σ → Prop} {E : ε → σ → Prop} {C : σ → Prop} {s : σ}

theorem wpe_pure (hC : C s) (hQ : Q a s) :
    D.wpe (pure a : Fallible Call Reply ε α) Q E C s := ⟨hC, hQ⟩

theorem wpe_throw {e : ε} (hC : C s) (hE : E e s) :
    D.wpe (throw e : Fallible Call Reply ε α) Q E C s := ⟨hC, hE⟩

theorem wpe_mono {Q' : α → σ → Prop} {E' : ε → σ → Prop} {C' : σ → Prop} (h : D.wpe p Q E C s)
    (hQ : ∀ a s, Q a s → Q' a s) (hE : ∀ e s, E e s → E' e s) (hC : ∀ s, C s → C' s) :
    D.wpe p Q' E' C' s := by
  refine wp_mono h ?_ hC
  intro result s h
  cases result with
  | ok a => exact hQ a s h
  | error e => exact hE e s h

theorem wpe_bind {f : α → Fallible Call Reply ε β} {Q : β → σ → Prop}
    (h : D.wpe p (fun a s => D.wpe (f a) Q E C s) E C s) : D.wpe (p >>= f) Q E C s := by
  unfold wpe at h ⊢
  rw [ExceptT.run_bind, wp_bind]
  -- the crash condition also holds where the error is passed on
  have hc : D.wp p.run (fun _ s => C s) C s :=
    wp_iff.mpr ⟨(wp_iff.mp h).2 _ (Stops.run _ _), (wp_iff.mp h).2⟩
  have hb := wp_and h hc
  refine wp_mono hb ?_ fun s hs => hs.1
  rintro result s ⟨hs, hC⟩
  cases result with
  | ok a => exact hs
  | error e => exact ⟨hC, hs⟩

theorem wpe_post {Q' : α → σ → Prop} (h : D.wpe p Q E C s) (hQ : ∀ a s, Q a s → Q' a s) :
    D.wpe p Q' E C s :=
  wpe_mono h hQ (fun _ _ he => he) fun _ hc => hc

theorem wpe_seq {f : α → Fallible Call Reply ε β} {R : β → σ → Prop} (h : D.wpe p Q E C s)
    (hnext : ∀ a s, Q a s → D.wpe (f a) R E C s) : D.wpe (p >>= f) R E C s :=
  wpe_bind (wpe_post h hnext)

theorem wpe_attempt {Q : Except ε α → σ → Prop}
    (h : D.wpe p (fun a s => Q (.ok a) s) (fun e s => Q (.error e) s) C s) :
    D.wpe (attempt p) Q E C s := by
  unfold wpe at h ⊢
  have hc : D.wp p.run (fun _ s => C s) C s :=
    wp_iff.mpr ⟨(wp_iff.mp h).2 _ (Stops.run _ _), (wp_iff.mp h).2⟩
  change D.wp (p.run >>= fun result => pure (Except.ok result)) _ C s
  rw [wp_bind]
  refine wp_mono (wp_and h hc) ?_ fun s hs => hs.1
  rintro result s ⟨hs, hC⟩
  cases result with
  | ok a | error e => exact ⟨hC, hs⟩

theorem wpe_ok (h : D.wpe p Q E C s) (hrun : D.run p.run s = (.ok a, s')) : Q a s' := by
  have he := (wp_iff.mp h).1
  rw [hrun] at he
  exact he

theorem wpe_error {e : ε} (h : D.wpe p Q E C s) (hrun : D.run p.run s = (.error e, s')) :
    E e s' := by
  have he := (wp_iff.mp h).1
  rw [hrun] at he
  exact he

theorem wpe_stops (h : D.wpe p Q E C s) (hstop : D.Stops p.run s s') : C s' :=
  (wp_iff.mp h).2 s' hstop

theorem exists_of_wpe (h : D.wpe p Q (fun _ _ => False) C s) :
    ∃ a s', D.run p.run s = (.ok a, s') ∧ Q a s' := by
  cases hr : D.run p.run s with
  | mk result s' =>
    cases result with
    | ok a => exact ⟨a, s', rfl, wpe_ok h hr⟩
    | error e => exact (wpe_error h hr).elim

theorem Stops.bind_ok {f : α → Fallible Call Reply ε β} {s₁ : σ}
    (hrun : D.run p.run s = (.ok a, s₁)) (h : D.Stops (f a).run s₁ s') :
    D.Stops (p >>= f).run s s' := by
  rw [ExceptT.run_bind]
  apply Stops.bind_right
  rw [hrun]
  exact h

theorem wpe_forM {γ : Type} {body : γ → Fallible Call Reply ε PUnit} (I : List γ → σ → Prop)
    (hI : ∀ items s, I items s → C s) (hbody : ∀ item items s, I (item :: items) s →
      D.wpe (body item) (fun _ s => I items s) E C s) {items : List γ} (h : I items s) :
    D.wpe (forM items body) (fun _ s => I [] s) E C s := by
  induction items generalizing s with
  | nil => exact wpe_pure (hI _ _ h) h
  | cons item items ih =>
    rw [forM_cons]
    refine wpe_seq (hbody item items s h) ?_
    intro _ s hs
    exact ih hs

end Device

end Fallible

/-! ## One failing call -/

namespace Device

variable {Call : Type} {Reply : Call → Type} {σ ε α β : Type}
variable (D : Device Call Reply σ) (err : (request : Call) → Reply request)

/-- The runs in which one execution of the call `failing` replies with `err`,
its own effect having happened (`applied`) or not, and every other call does
what the device says. -/
inductive Faulted (failing : Call) (applied : Bool) :
    Program Call Reply α → σ → α → σ → Prop where
  | here {next : Reply failing → Program Call Reply α} {s s' : σ} {a : α} :
      D.run (next (err failing)) (if applied then (D.exec failing s).2 else s) = (a, s') →
      Faulted failing applied (.call failing next) s a s'
  | later {request : Call} {next : Reply request → Program Call Reply α} {s s' : σ} {a : α} :
      Faulted failing applied (next (D.exec request s).1) (D.exec request s).2 a s' →
      Faulted failing applied (.call request next) s a s'

/-- The run in which the call at position `n` fails, with that call. -/
def faultAt (applied : Bool) : ℕ → Program Call Reply α → σ → Option (Call × α × σ)
  | _, .done _, _ => none
  | 0, .call request next, s =>
    some (request, D.run (next (err request)) (if applied then (D.exec request s).2 else s))
  | n + 1, .call request next, s =>
    faultAt applied n (next (D.exec request s).1) (D.exec request s).2

/-- Every call is one of `P`, and its failure ends the program with an error. -/
def Strict (P : Call → Prop) : Program Call Reply (Except ε α) → Prop
  | .done _ => True
  | .call request next =>
    P request ∧ (∃ e, next (err request) = .done (.error e)) ∧ ∀ reply, Strict P (next reply)

variable {D err} {P : Call → Prop} {failing : Call} {applied : Bool} {s s' : σ}

theorem Faulted.of_faultAt {n : ℕ} {p : Program Call Reply α} {a : α}
    (h : D.faultAt err applied n p s = some (failing, a, s')) :
    D.Faulted err failing applied p s a s' := by
  induction p generalizing n s with
  | done val => simp [faultAt] at h
  | call request next ih =>
    cases n with
    | zero =>
      obtain ⟨rfl, hr⟩ := Prod.mk.inj (Option.some.inj h)
      exact .here hr
    | succ n => exact .later (ih _ h)

theorem Strict.bind {p : Fallible Call Reply ε α} {f : α → Fallible Call Reply ε β}
    (hp : Strict err P p.run) (hf : ∀ a, Strict err P (f a).run) : Strict err P (p >>= f).run := by
  rw [ExceptT.run_bind]
  generalize p.run = prog at hp ⊢
  induction prog with
  | done result =>
    cases result with
    | ok a => exact hf a
    | error e => exact trivial
  | call request next ih =>
    obtain ⟨hc, ⟨e, he⟩, hn⟩ := hp
    refine ⟨hc, ⟨e, ?_⟩, fun rep => ih rep (hn rep)⟩
    change (next (err request) >>= _) = _
    rw [he]
    rfl

theorem Strict.forM {γ : Type} {body : γ → Fallible Call Reply ε PUnit} {items : List γ}
    (h : ∀ item ∈ items, Strict err P (body item).run) :
    Strict err P (forM items body : Fallible Call Reply ε PUnit).run := by
  induction items with
  | nil => exact trivial
  | cons item items ih =>
    rw [forM_cons]
    exact Strict.bind (h item mem_cons_self)
      fun _ => ih fun item hi => h item (mem_cons_of_mem _ hi)

theorem Faulted.of_bind {p : Program Call Reply α} {f : α → Program Call Reply β} {b : β}
    (h : D.Faulted err failing applied (p >>= f) s b s') :
    (∃ a s₁, D.Faulted err failing applied p s a s₁ ∧ D.run (f a) s₁ = (b, s')) ∨
      D.Faulted err failing applied (f (D.run p s).1) (D.run p s).2 b s' := by
  induction p generalizing s with
  | done val => exact .inr h
  | call request next ih =>
    rw [Program.call_bind] at h
    cases h with
    | here hr =>
      rw [run_bind] at hr
      exact .inl ⟨_, _, .here rfl, hr⟩
    | later hl =>
      rcases ih _ hl with ⟨a, s₁, hp, hr⟩ | hf
      · exact .inl ⟨a, s₁, .later hp, hr⟩
      · exact .inr hf

theorem Faulted.of_bind_except {p : Fallible Call Reply ε α} {f : α → Fallible Call Reply ε β}
    {result : Except ε β} (h : D.Faulted err failing applied (p >>= f).run s result s') :
    (∃ e, D.Faulted err failing applied p.run s (.error e) s' ∧ result = .error e) ∨
    (∃ a s₁, D.Faulted err failing applied p.run s (.ok a) s₁ ∧ D.run (f a).run s₁ = (result, s')) ∨
    ∃ a s₁, D.run p.run s = (.ok a, s₁) ∧ D.Faulted err failing applied (f a).run s₁ result s' := by
  rw [ExceptT.run_bind] at h
  rcases h.of_bind with ⟨first, s₁, hf, hr⟩ | hl
  · cases first with
    | ok a => exact .inr (.inl ⟨a, s₁, hf, hr⟩)
    | error e =>
      obtain ⟨rfl, rfl⟩ := Prod.mk.inj hr
      exact .inl ⟨e, hf, rfl⟩
  cases hr : D.run p.run s with
  | mk first s₁ =>
    rw [hr] at hl
    cases first with
    | ok a => exact .inr (.inr ⟨a, s₁, rfl, hl⟩)
    | error e => cases hl

theorem Faulted.of_strict {p : Program Call Reply (Except ε α)} {result : Except ε α}
    (hp : Strict err P p) (h : D.Faulted err failing applied p s result s') :
    P failing ∧ (∃ e, result = .error e) ∧ D.Stops p s s' := by
  induction h with
  | @here next s s' result hr =>
    obtain ⟨hc, ⟨e, he⟩, -⟩ := hp
    rw [he, run_done, Prod.mk.injEq] at hr
    obtain ⟨rfl, rfl⟩ := hr
    refine ⟨hc, ⟨e, rfl⟩, ?_⟩
    cases applied with
    | false => exact .here _ s
    | true => exact .later (.here _ _)
  | later _ ih =>
    obtain ⟨hc, hre, hs⟩ := ih (hp.2.2 _)
    exact ⟨hc, hre, .later hs⟩

end Device

end Crash
