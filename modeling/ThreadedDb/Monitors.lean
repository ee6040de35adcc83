import Mathlib

/-!
# Threads around one mutex with condition variables

A thread works in sections under the mutex. A section waits on a condition, which gives the mutex
up, or it leaves, with changed state and with a signal or a broadcast for some conditions. A
thread that waits is woken by these or for no reason at all; it then takes the mutex again and
starts its section over. A signal wakes at least one thread that waits, a broadcast all of them.
-/
namespace Monitors

inductive Wake where
  | quiet
  | signal
  | broadcast
  deriving DecidableEq, Repr

inductive Outcome (Cond σ Local : Type) where
  | wait (c : Cond)
  | leave (shared : σ) (l : Local) (wake : Cond → Wake)

/-- `locked` is the section that a thread is at, if it is at one, and `act` what it does outside. -/
structure Program (Thread Cond Act σ Local : Type) where
  locked : Thread → Local → σ → Option (Outcome Cond σ Local)
  act : Thread → Act → Local → σ → Option (σ × Local)

inductive Stage (Cond Local : Type) where
  | running (l : Local)
  | asleep (c : Cond) (l : Local)
  | woken (c : Cond) (l : Local)

section Stages

variable {Cond Local : Type}

def Stage.sleepsOn : Stage Cond Local → Option Cond
  | .asleep c _ => some c
  | _ => none

def Stage.wokenOn : Stage Cond Local → Option Cond
  | .woken c _ => some c
  | _ => none

def Stage.ready : Stage Cond Local → Option Local
  | .running l => some l
  | .woken _ l => some l
  | .asleep _ _ => none

def Stage.wake : Stage Cond Local → Stage Cond Local
  | .asleep c l => .woken c l
  | stage => stage

def Stage.within : Stage Cond Local → Local
  | .running l => l
  | .asleep _ l => l
  | .woken _ l => l

theorem sleepsOn_iff {stage : Stage Cond Local} {c : Cond} :
    stage.sleepsOn = some c ↔ ∃ l, stage = .asleep c l := by
  cases stage <;> simp [Stage.sleepsOn]

theorem wokenOn_iff {stage : Stage Cond Local} {c : Cond} :
    stage.wokenOn = some c ↔ ∃ l, stage = .woken c l := by
  cases stage <;> simp [Stage.wokenOn]

theorem within_of_ready {stage : Stage Cond Local} {l : Local} (h : stage.ready = some l) :
    stage.within = l := by
  cases stage with
  | running l' => exact Option.some.inj h
  | asleep c l' => cases h
  | woken c l' => exact Option.some.inj h

@[simp] theorem within_wake (stage : Stage Cond Local) : stage.wake.within = stage.within := by
  cases stage <;> rfl

end Stages

structure State (Thread Cond σ Local : Type) where
  shared : σ
  stage : Thread → Stage Cond Local

inductive Event (Thread Act : Type) where
  | act (t : Thread) (a : Act)
  | spurious (t : Thread)
  | enter (t : Thread) (chosen : Finset Thread)
  deriving DecidableEq

variable {Thread Cond Act σ Local : Type}

def initial (shared : σ) (locals : Thread → Local) : State Thread Cond σ Local :=
  ⟨shared, fun t => .running (locals t)⟩

def State.locals (s : State Thread Cond σ Local) (t : Thread) : Local := (s.stage t).within

section Moves

variable [DecidableEq Thread]

def State.acted (s : State Thread Cond σ Local) (t : Thread) (shared : σ) (l : Local) :
    State Thread Cond σ Local :=
  ⟨shared, Function.update s.stage t (.running l)⟩

def State.stirred (s : State Thread Cond σ Local) (t : Thread) (c : Cond) (l : Local) :
    State Thread Cond σ Local :=
  { s with stage := Function.update s.stage t (.woken c l) }

def State.parked (s : State Thread Cond σ Local) (t : Thread) (c : Cond) (l : Local) :
    State Thread Cond σ Local :=
  { s with stage := Function.update s.stage t (.asleep c l) }

def wakeUp (chosen : Finset Thread) (stage : Thread → Stage Cond Local) (t : Thread) :
    Stage Cond Local :=
  if t ∈ chosen then (stage t).wake else stage t

def State.left (s : State Thread Cond σ Local) (t : Thread) (shared : σ) (l : Local)
    (chosen : Finset Thread) : State Thread Cond σ Local :=
  ⟨shared, Function.update (wakeUp chosen s.stage) t (.running l)⟩

variable {s : State Thread Cond σ Local} {t u : Thread} {c : Cond} {l : Local} {shared : σ}
  {chosen : Finset Thread}

@[simp] theorem acted_stage_self : (s.acted t shared l).stage t = .running l :=
  Function.update_self ..

@[simp] theorem acted_stage_ne (h : u ≠ t) : (s.acted t shared l).stage u = s.stage u :=
  Function.update_of_ne h ..

@[simp] theorem stirred_stage_self : (s.stirred t c l).stage t = .woken c l :=
  Function.update_self ..

@[simp] theorem stirred_stage_ne (h : u ≠ t) : (s.stirred t c l).stage u = s.stage u :=
  Function.update_of_ne h ..

@[simp] theorem parked_stage_self : (s.parked t c l).stage t = .asleep c l :=
  Function.update_self ..

@[simp] theorem parked_stage_ne (h : u ≠ t) : (s.parked t c l).stage u = s.stage u :=
  Function.update_of_ne h ..

@[simp] theorem left_stage_self : (s.left t shared l chosen).stage t = .running l :=
  Function.update_self ..

theorem left_stage_ne (h : u ≠ t) :
    (s.left t shared l chosen).stage u = wakeUp chosen s.stage u :=
  Function.update_of_ne h ..

theorem wakeUp_stays {stage : Thread → Stage Cond Local} (h : u ∉ chosen) :
    wakeUp chosen stage u = stage u := if_neg h

theorem wakeUp_wakes {stage : Thread → Stage Cond Local} (h : u ∈ chosen) :
    wakeUp chosen stage u = (stage u).wake := if_pos h

/-- Who still sleeps after a section was asleep before and has not been chosen. -/
theorem sleepsOn_left (h : ((s.left t shared l chosen).stage u).sleepsOn = some c) :
    u ∉ chosen ∧ (s.stage u).sleepsOn = some c := by
  by_cases hu : u = t
  · subst hu
    rw [left_stage_self] at h
    cases h
  rw [left_stage_ne hu] at h
  by_cases hchosen : u ∈ chosen
  · rw [wakeUp_wakes hchosen] at h
    cases hstage : s.stage u <;> simp [hstage, Stage.wake, Stage.sleepsOn] at h
  · rw [wakeUp_stays hchosen] at h
    exact ⟨hchosen, h⟩

theorem locals_acted : (s.acted t shared l).locals = Function.update s.locals t l := by
  funext u
  by_cases hu : u = t
  · subst hu
    rw [Function.update_self, State.locals, acted_stage_self]
    rfl
  · rw [Function.update_of_ne hu, State.locals, acted_stage_ne hu]
    rfl

theorem locals_stirred (h : s.stage t = .asleep c l) : (s.stirred t c l).locals = s.locals := by
  funext u
  by_cases hu : u = t
  · subst hu
    rw [State.locals, stirred_stage_self, State.locals, h]
    rfl
  · rw [State.locals, stirred_stage_ne hu]
    rfl

theorem locals_parked (h : (s.stage t).ready = some l) : (s.parked t c l).locals = s.locals := by
  funext u
  by_cases hu : u = t
  · subst hu
    rw [State.locals, parked_stage_self, State.locals, within_of_ready h]
    rfl
  · rw [State.locals, parked_stage_ne hu]
    rfl

theorem locals_left : (s.left t shared l chosen).locals = Function.update s.locals t l := by
  funext u
  by_cases hu : u = t
  · subst hu
    rw [Function.update_self, State.locals, left_stage_self]
    rfl
  · rw [Function.update_of_ne hu, State.locals, left_stage_ne hu, wakeUp]
    split
    · exact within_wake _
    · rfl

end Moves

section System

variable [DecidableEq Thread] [DecidableEq Cond] [Fintype Thread] [Fintype Cond]

/-- The threads that may be woken: only ones that wait on a condition that is signalled, at least
one of these, and all of these after a broadcast. -/
def Fits (wake : Cond → Wake) (chosen : Finset Thread) (stage : Thread → Stage Cond Local) : Prop :=
  (∀ t ∈ chosen, ∃ c, (stage t).sleepsOn = some c ∧ wake c ≠ .quiet) ∧
  (∀ c, wake c = .signal → (∃ t, (stage t).sleepsOn = some c) →
    ∃ t ∈ chosen, (stage t).sleepsOn = some c) ∧
  ∀ c, wake c = .broadcast → ∀ t, (stage t).sleepsOn = some c → t ∈ chosen

instance (wake : Cond → Wake) (chosen : Finset Thread) (stage : Thread → Stage Cond Local) :
    Decidable (Fits wake chosen stage) := instDecidableAnd

variable (p : Program Thread Cond Act σ Local)

def step (s : State Thread Cond σ Local) : Event Thread Act → Option (State Thread Cond σ Local)
  | .act t a =>
    match s.stage t with
    | .running l => (p.act t a l s.shared).map (fun r => s.acted t r.1 r.2)
    | _ => none
  | .spurious t =>
    match s.stage t with
    | .asleep c l => some (s.stirred t c l)
    | _ => none
  | .enter t chosen =>
    match (s.stage t).ready with
    | none => none
    | some l =>
      match p.locked t l s.shared with
      | none => none
      | some (.wait c) => if chosen = ∅ then some (s.parked t c l) else none
      | some (.leave shared l' wake) =>
        if Fits wake chosen s.stage then some (s.left t shared l' chosen) else none

def runEvents (s : State Thread Cond σ Local) :
    List (Event Thread Act) → Option (State Thread Cond σ Local)
  | [] => some s
  | e :: events => (step p s e).bind (fun t => runEvents t events)

variable {p}

theorem step_cases {s s' : State Thread Cond σ Local} {e : Event Thread Act}
    (h : step p s e = some s') :
    (∃ t a l shared l', s.stage t = .running l ∧ p.act t a l s.shared = some (shared, l') ∧
      s' = s.acted t shared l') ∨
    (∃ t c l, s.stage t = .asleep c l ∧ s' = s.stirred t c l) ∨
    (∃ t l c, (s.stage t).ready = some l ∧ p.locked t l s.shared = some (.wait c) ∧
      s' = s.parked t c l) ∨
    (∃ t l shared l' wake chosen, (s.stage t).ready = some l ∧
      p.locked t l s.shared = some (.leave shared l' wake) ∧ Fits wake chosen s.stage ∧
      s' = s.left t shared l' chosen) := by
  cases e with
  | act t a =>
    left
    simp only [step] at h
    split at h
    · rename_i l hstage
      obtain ⟨⟨shared, l'⟩, hact, rfl⟩ := Option.map_eq_some_iff.mp h
      exact ⟨t, a, l, shared, l', hstage, hact, rfl⟩
    · cases h
  | spurious t =>
    right; left
    simp only [step] at h
    split at h
    · rename_i c l hstage
      cases h
      exact ⟨t, c, l, hstage, rfl⟩
    · cases h
  | enter t chosen =>
    right; right
    simp only [step] at h
    split at h
    · cases h
    rename_i l hready
    split at h
    · cases h
    · rename_i c hlocked
      left
      split at h
      · cases h
        exact ⟨t, l, c, hready, hlocked, rfl⟩
      · cases h
    · rename_i shared l' wake hlocked
      right
      split at h
      · rename_i hfits
        cases h
        exact ⟨t, l, shared, l', wake, chosen, hready, hlocked, hfits, rfl⟩
      · cases h

theorem runEvents_invariant {P : State Thread Cond σ Local → Prop}
    (hstep : ∀ s e s', step p s e = some s' → P s → P s') {events : List (Event Thread Act)}
    {s s' : State Thread Cond σ Local} (hrun : runEvents p s events = some s') (hs : P s) :
    P s' := by
  induction events generalizing s with
  | nil =>
    cases hrun
    exact hs
  | cons e events ih =>
    obtain ⟨t, ht, hrest⟩ := Option.bind_eq_some_iff.mp hrun
    exact ih hrest (hstep s e t ht hs)

/-- What a step can do, apart from who sleeps: nothing, or one thread moves on, by acting or by
leaving its section. -/
theorem step_moves {s s' : State Thread Cond σ Local} {e : Event Thread Act}
    (h : step p s e = some s') : (s'.shared = s.shared ∧ s'.locals = s.locals) ∨
    ∃ t l', s'.locals = Function.update s.locals t l' ∧
      ((∃ a, p.act t a (s.locals t) s.shared = some (s'.shared, l')) ∨
        ∃ wake, p.locked t (s.locals t) s.shared = some (.leave s'.shared l' wake)) := by
  rcases step_cases h with ⟨t, a, l, shared, l', hstage, hact, rfl⟩ | ⟨t, c, l, hstage, rfl⟩ |
    ⟨t, l, c, hready, hlocked, rfl⟩ | ⟨t, l, shared, l', wake, chosen, hready, hlocked, hfits, rfl⟩
  · have hlocal : s.locals t = l := by rw [State.locals, hstage]; rfl
    exact Or.inr ⟨t, l', locals_acted, Or.inl ⟨a, hlocal ▸ hact⟩⟩
  · exact Or.inl ⟨rfl, locals_stirred hstage⟩
  · exact Or.inl ⟨rfl, locals_parked hready⟩
  · have hlocal : s.locals t = l := within_of_ready hready
    exact Or.inr ⟨t, l', locals_left, Or.inr ⟨wake, hlocal ▸ hlocked⟩⟩

end System

/-- What the sections owe to the threads that wait. In a state `need c` threads that wait on `c`
could go on. A section waits only where none could; it signals when it makes room for one more;
a thread that was woken and leaves has used up a place; closing wakes everybody. -/
structure Accounts (p : Program Thread Cond Act σ Local) where
  valid : σ → Prop
  need : Cond → σ → ℕ
  closed : σ → Prop
  act_keeps : ∀ {t a l shared shared' l'}, p.act t a l shared = some (shared', l') →
    valid shared → valid shared' ∧ (closed shared' → closed shared) ∧
      ∀ c, need c shared' = need c shared
  wait_short : ∀ {t l shared c}, p.locked t l shared = some (.wait c) →
    need c shared = 0 ∧ ¬ closed shared
  wait_same : ∀ {t l shared c shared' c'}, p.locked t l shared = some (.wait c) →
    p.locked t l shared' = some (.wait c') → c = c'
  leave_valid : ∀ {t l shared shared' l' wake},
    p.locked t l shared = some (.leave shared' l' wake) → valid shared → valid shared'
  leave_closes : ∀ {t l shared shared' l' wake},
    p.locked t l shared = some (.leave shared' l' wake) → valid shared → closed shared' →
      ¬ closed shared → ∀ c, wake c = .broadcast
  leave_signals : ∀ {t l shared shared' l' wake},
    p.locked t l shared = some (.leave shared' l' wake) → valid shared → ¬ closed shared' →
      ∀ c, need c shared' ≤ need c shared + (if wake c = .signal then 1 else 0)
  leave_uses : ∀ {t l shared shared' l' wake shared₀ c},
    p.locked t l shared₀ = some (.wait c) → p.locked t l shared = some (.leave shared' l' wake) →
      valid shared → ¬ closed shared' → need c shared' < need c shared

section Balance

variable [Fintype Thread] [DecidableEq Cond]

/-- The threads that were woken on a condition and have not resumed. -/
def State.wokenOn (s : State Thread Cond σ Local) (c : Cond) : Finset Thread :=
  Finset.univ.filter (fun t => (s.stage t).wokenOn = some c)

theorem mem_wokenOn {s : State Thread Cond σ Local} {c : Cond} {t : Thread} :
    t ∈ s.wokenOn c ↔ (s.stage t).wokenOn = some c := by
  simp [State.wokenOn]

/-- The woken threads, counted among those that wait on the condition at all. -/
theorem card_wokenOn {s : State Thread Cond σ Local} {c : Cond} {α : Type} [Fintype α]
    (f : α ↪ Thread) (h : ∀ t l, s.stage t = .woken c l → ∃ a, f a = t) :
    (s.wokenOn c).card =
      (Finset.univ.filter (fun a => (s.stage (f a)).wokenOn = some c)).card := by
  have hmap : s.wokenOn c =
      (Finset.univ.filter (fun a => (s.stage (f a)).wokenOn = some c)).map f := by
    ext t
    rw [mem_wokenOn, Finset.mem_map]
    constructor
    · intro hwoken
      obtain ⟨l, hstage⟩ := wokenOn_iff.mp hwoken
      obtain ⟨a, rfl⟩ := h t l hstage
      exact ⟨a, by simpa using hwoken, rfl⟩
    · rintro ⟨a, ha, rfl⟩
      simpa using ha
  rw [hmap, Finset.card_map]

variable {p : Program Thread Cond Act σ Local}

/-- The invariant: whoever is or was asleep on a condition is at a section that waits on it; and
while a thread sleeps on a condition, the state is not closed and as many threads have been woken
as could go on. -/
structure Balanced (k : Accounts p) (s : State Thread Cond σ Local) : Prop where
  valid : k.valid s.shared
  waits : ∀ t c l, s.stage t = .asleep c l ∨ s.stage t = .woken c l →
    ∃ shared, p.locked t l shared = some (.wait c)
  covered : ∀ t c, (s.stage t).sleepsOn = some c →
    ¬ k.closed s.shared ∧ k.need c s.shared ≤ (s.wokenOn c).card

variable {k : Accounts p} {s : State Thread Cond σ Local}

theorem balanced_initial {shared : σ} (hvalid : k.valid shared) (locals : Thread → Local) :
    Balanced k (initial shared locals) := by
  refine ⟨hvalid, ?_, ?_⟩
  · rintro t c l (h | h)
    · cases h
    · cases h
  · intro t c h
    cases h

variable [DecidableEq Thread]

theorem balanced_acted (hs : Balanced k s) {t : Thread} {a : Act} {l l' : Local} {shared : σ}
    (hstage : s.stage t = .running l) (hact : p.act t a l s.shared = some (shared, l')) :
    Balanced k (s.acted t shared l') := by
  obtain ⟨hvalid, hclosed, hneed⟩ := k.act_keeps hact hs.valid
  have hwoken (c : Cond) : (s.acted t shared l').wokenOn c = s.wokenOn c := by
    ext u
    rw [mem_wokenOn, mem_wokenOn]
    by_cases hu : u = t
    · subst hu
      rw [acted_stage_self, hstage]
      rfl
    · rw [acted_stage_ne hu]
  refine ⟨hvalid, ?_, ?_⟩
  · intro u c l₀ h
    by_cases hu : u = t
    · subst hu
      simp at h
    · rw [acted_stage_ne hu] at h
      exact hs.waits u c l₀ h
  · intro u c h
    by_cases hu : u = t
    · subst hu
      rw [acted_stage_self] at h
      cases h
    · rw [acted_stage_ne hu] at h
      obtain ⟨hopen, hle⟩ := hs.covered u c h
      rw [hwoken]
      exact ⟨fun hc => hopen (hclosed hc), (hneed c).trans_le hle⟩

theorem balanced_stirred (hs : Balanced k s) {t : Thread} {c : Cond} {l : Local}
    (hstage : s.stage t = .asleep c l) : Balanced k (s.stirred t c l) := by
  refine ⟨hs.valid, ?_, ?_⟩
  · intro u c₀ l₀ h
    by_cases hu : u = t
    · subst hu
      rw [stirred_stage_self] at h
      rcases h with h | h
      · cases h
      · cases h
        exact hs.waits u c l (Or.inl hstage)
    · rw [stirred_stage_ne hu] at h
      exact hs.waits u c₀ l₀ h
  · intro u c₀ h
    by_cases hu : u = t
    · subst hu
      rw [stirred_stage_self] at h
      cases h
    · rw [stirred_stage_ne hu] at h
      obtain ⟨hopen, hle⟩ := hs.covered u c₀ h
      refine ⟨hopen, hle.trans (Finset.card_le_card ?_)⟩
      intro v hv
      rw [mem_wokenOn] at hv ⊢
      by_cases hvt : v = t
      · subst hvt
        rw [hstage] at hv
        cases hv
      · rwa [stirred_stage_ne hvt]

theorem balanced_parked (hs : Balanced k s) {t : Thread} {c : Cond} {l : Local}
    (hready : (s.stage t).ready = some l) (hlocked : p.locked t l s.shared = some (.wait c)) :
    Balanced k (s.parked t c l) := by
  obtain ⟨hneed, hopen⟩ := k.wait_short hlocked
  refine ⟨hs.valid, ?_, ?_⟩
  · intro u c₀ l₀ h
    by_cases hu : u = t
    · subst hu
      rw [parked_stage_self] at h
      rcases h with h | h
      · cases h
        exact ⟨s.shared, hlocked⟩
      · cases h
    · rw [parked_stage_ne hu] at h
      exact hs.waits u c₀ l₀ h
  · intro u c₀ h
    refine ⟨hopen, ?_⟩
    by_cases hc : c₀ = c
    · subst hc
      exact hneed.le.trans (Nat.zero_le _)
    · -- the thread sleeps on another condition, and it was not woken on this one
      by_cases hu : u = t
      · subst hu
        rw [parked_stage_self] at h
        cases h
        exact absurd rfl hc
      · rw [parked_stage_ne hu] at h
        refine (hs.covered u c₀ h).2.trans (Finset.card_le_card ?_)
        intro v hv
        rw [mem_wokenOn] at hv ⊢
        by_cases hvt : v = t
        · subst hvt
          obtain ⟨l₀, hstage⟩ := wokenOn_iff.mp hv
          rw [hstage] at hready
          cases hready
          obtain ⟨shared, hwaits⟩ := hs.waits v c₀ l (Or.inr hstage)
          exact absurd (k.wait_same hwaits hlocked) hc
        · rwa [parked_stage_ne hvt]

variable {wake : Cond → Wake} {chosen : Finset Thread}

theorem erase_wokenOn_left (hfits : Fits wake chosen s.stage) {t : Thread} {l' : Local} {shared : σ}
    (c : Cond) : (s.wokenOn c).erase t ⊆ (s.left t shared l' chosen).wokenOn c := by
  intro u hu
  obtain ⟨hne, hwoken⟩ := Finset.mem_erase.mp hu
  obtain ⟨l, hstage⟩ := wokenOn_iff.mp (mem_wokenOn.mp hwoken)
  have hchosen : u ∉ chosen := by
    intro hchosen
    obtain ⟨c', hsleeps, -⟩ := hfits.1 u hchosen
    rw [hstage] at hsleeps
    cases hsleeps
  rw [mem_wokenOn, left_stage_ne hne, wakeUp_stays hchosen, hstage]
  rfl

theorem signal_wokenOn_left (hfits : Fits wake chosen s.stage) {t u : Thread} {l l' : Local}
    {shared : σ} {c : Cond} (hready : (s.stage t).ready = some l) (hwake : wake c = .signal)
    (hsleeps : (s.stage u).sleepsOn = some c) :
    ∃ v, v ∉ s.wokenOn c ∧ v ∈ (s.left t shared l' chosen).wokenOn c := by
  obtain ⟨v, hchosen, hv⟩ := hfits.2.1 c hwake ⟨u, hsleeps⟩
  obtain ⟨l₀, hstage⟩ := sleepsOn_iff.mp hv
  have hne : v ≠ t := by
    rintro rfl
    rw [hstage] at hready
    cases hready
  refine ⟨v, ?_, ?_⟩
  · rw [mem_wokenOn, hstage]
    simp [Stage.wokenOn]
  · rw [mem_wokenOn, left_stage_ne hne, wakeUp_wakes hchosen, hstage]
    rfl

/-- Where a thread still sleeps, the woken ones are enough for what the section left behind. -/
theorem covered_left (hs : Balanced k s) {t u : Thread} {c : Cond} {l l' : Local} {shared : σ}
    (hready : (s.stage t).ready = some l)
    (hlocked : p.locked t l s.shared = some (.leave shared l' wake))
    (hfits : Fits wake chosen s.stage) (hclosed : ¬ k.closed shared)
    (hsleeps : (s.stage u).sleepsOn = some c) :
    k.need c shared ≤ ((s.left t shared l' chosen).wokenOn c).card := by
  have hle := (hs.covered u c hsleeps).2
  have hkept : (s.wokenOn c).erase t ⊆ (s.left t shared l' chosen).wokenOn c :=
    erase_wokenOn_left hfits c
  by_cases hwoken : t ∈ s.wokenOn c
  · -- a woken thread has used up one of the places it was counted for
    obtain ⟨l₀, hstage⟩ := wokenOn_iff.mp (mem_wokenOn.mp hwoken)
    rw [hstage] at hready
    cases hready
    obtain ⟨shared₀, hwaits⟩ := hs.waits t c l (Or.inr hstage)
    have huses := k.leave_uses hwaits hlocked hs.valid hclosed
    have hcard := Finset.card_le_card hkept
    rw [Finset.card_erase_of_mem hwoken] at hcard
    omega
  · rw [Finset.erase_eq_of_notMem hwoken] at hkept
    have hsignals := k.leave_signals hlocked hs.valid hclosed c
    by_cases hwake : wake c = .signal
    · rw [if_pos hwake] at hsignals
      have hsignal : ∃ v, v ∉ s.wokenOn c ∧ v ∈ (s.left t shared l' chosen).wokenOn c :=
        signal_wokenOn_left hfits hready hwake hsleeps
      obtain ⟨v, hnew, hv⟩ := hsignal
      have hcard := Finset.card_le_card (Finset.insert_subset hv hkept)
      rw [Finset.card_insert_of_notMem hnew] at hcard
      omega
    · rw [if_neg hwake] at hsignals
      have hcard := Finset.card_le_card hkept
      omega

theorem balanced_left (hs : Balanced k s) {t : Thread} {l l' : Local} {shared : σ}
    (hready : (s.stage t).ready = some l)
    (hlocked : p.locked t l s.shared = some (.leave shared l' wake))
    (hfits : Fits wake chosen s.stage) : Balanced k (s.left t shared l' chosen) := by
  refine ⟨k.leave_valid hlocked hs.valid, ?_, ?_⟩
  · intro u c l₀ h
    by_cases hu : u = t
    · subst hu
      simp at h
    · rw [left_stage_ne hu] at h
      by_cases hchosen : u ∈ chosen
      · obtain ⟨c₁, hsleeps, -⟩ := hfits.1 u hchosen
        obtain ⟨l₁, hstage⟩ := sleepsOn_iff.mp hsleeps
        rw [wakeUp_wakes hchosen, hstage] at h
        rcases h with h | h
        · cases h
        · cases h
          exact hs.waits u c l₀ (Or.inl hstage)
      · rw [wakeUp_stays hchosen] at h
        exact hs.waits u c l₀ h
  · intro u c h
    obtain ⟨hchosen, hsleeps⟩ := sleepsOn_left h
    have hopen := (hs.covered u c hsleeps).1
    have hclosed : ¬ k.closed shared := by
      intro hcl
      exact hchosen (hfits.2.2 c (k.leave_closes hlocked hs.valid hcl hopen c) u hsleeps)
    exact ⟨hclosed, covered_left hs hready hlocked hfits hclosed hsleeps⟩

variable [Fintype Cond]

theorem balanced_step {s' : State Thread Cond σ Local} {e : Event Thread Act}
    (h : step p s e = some s') (hs : Balanced k s) : Balanced k s' := by
  rcases step_cases h with ⟨t, a, l, shared, l', hstage, hact, rfl⟩ | ⟨t, c, l, hstage, rfl⟩ |
    ⟨t, l, c, hready, hlocked, rfl⟩ | ⟨t, l, shared, l', wake, chosen, hready, hlocked, hfits, rfl⟩
  · exact balanced_acted hs hstage hact
  · exact balanced_stirred hs hstage
  · exact balanced_parked hs hready hlocked
  · exact balanced_left hs hready hlocked hfits

theorem balanced_run {shared : σ} (hvalid : k.valid shared) {locals : Thread → Local}
    {events : List (Event Thread Act)} {s' : State Thread Cond σ Local}
    (hrun : runEvents p (initial shared locals) events = some s') : Balanced k s' :=
  runEvents_invariant (fun _ _ _ h hs => balanced_step h hs) hrun (balanced_initial hvalid locals)

end Balance

end Monitors
