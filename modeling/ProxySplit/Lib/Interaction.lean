universe u v w

namespace ProxySplit.Lib

/-- A program over effects `e : E`, each answered by its surroundings with a value of `A e`.
An effect without answers is one that never returns. -/
inductive Prog (E : Type u) (A : E → Type v) (α : Type w) : Type (max u v w)
  | pure : α → Prog E A α
  | perform : (e : E) → (A e → Prog E A α) → Prog E A α

namespace Prog

variable {E : Type u} {A : E → Type v} {α β : Type w}

def bind : Prog E A α → (α → Prog E A β) → Prog E A β
  | .pure a, f => f a
  | .perform e k, f => .perform e fun x => (k x).bind f

instance : Monad (Prog E A) where
  pure := .pure
  bind := .bind

def call {E : Type u} {A : E → Type v} (e : E) : Prog E A (A e) := .perform e .pure

theorem bind_assoc {γ : Type w} (p : Prog E A α) (f : α → Prog E A β) (g : β → Prog E A γ) :
    (p >>= f) >>= g = p >>= fun a => f a >>= g := by
  induction p with
  | pure a => rfl
  | perform e k ih => exact congrArg (Prog.perform e) (funext ih)

/-- The program over other effects: `f e` is performed in place of `e`. -/
def embed {E' : Type u} {A' : E' → Type v} (f : E → E') (back : ∀ e, A' (f e) → A e) :
    Prog E A α → Prog E' A' α
  | .pure a => .pure a
  | .perform e k => .perform (f e) fun x => (k (back e x)).embed f back

abbrev Event (E : Type u) (A : E → Type v) := (e : E) × A e

/-- `Runs p tr a`: with the answers in `tr` the program performs the effects of `tr`, in that
order, and returns `a`. -/
inductive Runs : Prog E A α → List (Event E A) → α → Prop
  | pure {a} : Runs (.pure a) [] a
  | perform {e k x tr a} : Runs (k x) tr a → Runs (.perform e k) (⟨e, x⟩ :: tr) a

/-- `Steps p tr q`: with the answers in `tr` the program performs the effects of `tr`, in that
order, and then goes on as `q`. -/
inductive Steps : Prog E A α → List (Event E A) → Prog E A α → Prop
  | refl {p} : Steps p [] p
  | perform {e k x tr q} : Steps (k x) tr q → Steps (.perform e k) (⟨e, x⟩ :: tr) q

def exec (respond : (e : E) → A e) : Prog E A α → List (Event E A) × α
  | .pure a => ([], a)
  | .perform e k =>
    let rest := exec respond (k (respond e))
    (⟨e, respond e⟩ :: rest.1, rest.2)

theorem runs_exec (respond : (e : E) → A e) (p : Prog E A α) :
    Runs p (p.exec respond).1 (p.exec respond).2 := by
  induction p with
  | pure a => exact .pure
  | perform e k ih => exact .perform (ih (respond e))

theorem exec_events (respond : (e : E) → A e) (p : Prog E A α) :
    ∀ ev ∈ (p.exec respond).1, ev.2 = respond ev.1 := by
  induction p with
  | pure a => exact nofun
  | perform e k ih =>
    intro ev hev
    rcases List.mem_cons.mp hev with rfl | hev
    · rfl
    · exact ih _ ev hev

def execWith (respond : (e : E) → Option (A e)) : Prog E A α → Option (List (Event E A) × α)
  | .pure a => some ([], a)
  | .perform e k =>
    (respond e).bind fun x => (execWith respond (k x)).map fun run => (⟨e, x⟩ :: run.1, run.2)

theorem execWith_spec {respond : (e : E) → Option (A e)} {p : Prog E A α}
    {run : List (Event E A) × α} (h : p.execWith respond = some run) :
    Runs p run.1 run.2 ∧ ∀ ev ∈ run.1, respond ev.1 = some ev.2 := by
  induction p generalizing run with
  | pure a =>
    cases h
    exact ⟨.pure, nofun⟩
  | perform e k ih =>
    obtain ⟨x, hx, h⟩ := Option.bind_eq_some_iff.mp h
    obtain ⟨rest, hrest, rfl⟩ := Option.map_eq_some_iff.mp h
    obtain ⟨hruns, hevents⟩ := ih x hrest
    refine ⟨.perform hruns, ?_⟩
    intro ev hev
    rcases List.mem_cons.mp hev with rfl | hev
    · exact hx
    · exact hevents ev hev

theorem exists_runs_of_any {respond : (e : E) → Option (A e)} {p : Prog E A α}
    {check : List (Event E A) × α → Bool} (h : (p.execWith respond).any check = true) :
    ∃ tr a, Runs p tr a ∧ check (tr, a) = true := by
  obtain ⟨⟨tr, a⟩, hrun, hcheck⟩ := (Option.any_eq_true _ _).mp h
  exact ⟨tr, a, (execWith_spec hrun).1, hcheck⟩

theorem Runs.steps {p : Prog E A α} {tr : List (Event E A)} {a : α} (h : Runs p tr a) :
    Steps p tr (.pure a) := by
  induction h with
  | pure => exact .refl
  | perform _ ih => exact .perform ih

theorem Steps.trans {p q r : Prog E A α} {tr tr' : List (Event E A)} (h : Steps p tr q)
    (h' : Steps q tr' r) : Steps p (tr ++ tr') r := by
  induction h with
  | refl => exact h'
  | perform _ ih => exact .perform (ih h')

theorem Steps.bind {p q : Prog E A α} {tr : List (Event E A)} (h : Steps p tr q)
    (f : α → Prog E A β) : Steps (p >>= f) tr (q >>= f) := by
  induction h with
  | refl => exact .refl
  | perform _ ih => exact .perform ih

/-- Something that looks at the events of a run one after the other. -/
abbrev Monitor (E : Type u) (A : E → Type v) (σ : Type w) := σ → (e : E) → A e → σ

namespace Monitor

variable {σ τ : Type w}

def after (m : Monitor E A σ) : σ → List (Event E A) → σ
  | s, [] => s
  | s, ⟨e, x⟩ :: tr => after m (m s e x) tr

def prod (m : Monitor E A σ) (n : Monitor E A τ) : Monitor E A (σ × τ) :=
  fun s e x => (m s.1 e x, n s.2 e x)

def Always (m : Monitor E A σ) (good : σ → (e : E) → A e → Prop) : σ → List (Event E A) → Prop
  | _, [] => True
  | s, ⟨e, x⟩ :: tr => good s e x ∧ Always m good (m s e x) tr

instance decidableAlways (m : Monitor E A σ) (good : σ → (e : E) → A e → Prop)
    [∀ s e x, Decidable (good s e x)] : (s : σ) → (tr : List (Event E A)) →
      Decidable (m.Always good s tr)
  | _, [] => isTrue trivial
  | s, ⟨e, x⟩ :: tr =>
    let _rest := decidableAlways m good (m s e x) tr
    inferInstanceAs (Decidable (good s e x ∧ m.Always good (m s e x) tr))

theorem Always.congr {m : Monitor E A σ} {P good good' : σ → (e : E) → A e → Prop} {s : σ}
    {tr : List (Event E A)} (hP : m.Always P s tr)
    (h : ∀ s e x, P s e x → (good s e x ↔ good' s e x)) : m.Always good s tr ↔ m.Always good' s tr := by
  induction tr generalizing s with
  | nil => exact Iff.rfl
  | cons ev tr ih => exact and_congr (h s ev.1 ev.2 hP.1) (ih hP.2)

/-- An invariant that the events keep carries over what is good, and holds in the end. -/
theorem Always.of_invariant {m : Monitor E A σ} {good good' : σ → (e : E) → A e → Prop}
    {P : (e : E) → A e → Prop} {I : σ → Prop} {s : σ} {tr : List (Event E A)}
    (h : m.Always good s tr) (hP : ∀ ev ∈ tr, P ev.1 ev.2) (hs : I s)
    (hstep : ∀ s e x, I s → P e x → good s e x → good' s e x ∧ I (m s e x)) :
    m.Always good' s tr ∧ I (m.after s tr) := by
  induction tr generalizing s with
  | nil => exact ⟨trivial, hs⟩
  | cons ev tr ih =>
    obtain ⟨hgood, hI⟩ := hstep s ev.1 ev.2 hs (hP ev (.head _)) h.1
    obtain ⟨hrest, hafter⟩ := ih h.2 (fun ev hev => hP ev (.tail _ hev)) hI
    exact ⟨⟨hgood, hrest⟩, hafter⟩

theorem always_iff_forall {m : Monitor E A σ} {P : (e : E) → A e → Prop} {s : σ}
    {tr : List (Event E A)} : m.Always (fun _ => P) s tr ↔ ∀ ev ∈ tr, P ev.1 ev.2 := by
  induction tr generalizing s with
  | nil => exact iff_of_true trivial nofun
  | cons ev tr ih =>
    rw [List.forall_mem_cons]
    exact and_congr_right fun _ => ih

theorem after_prod (m : Monitor E A σ) (n : Monitor E A τ) (s : σ) (t : τ)
    (tr : List (Event E A)) : (m.prod n).after (s, t) tr = (m.after s tr, n.after t tr) := by
  induction tr generalizing s t with
  | nil => rfl
  | cons ev tr ih => exact ih _ _

end Monitor

variable {σ τ : Type w}

def wp (m : Monitor E A σ) : Prog E A α → (σ → α → Prop) → σ → Prop
  | .pure a, Q, s => Q s a
  | .perform e k, Q, s => ∀ x, wp m (k x) Q (m s e x)

@[simp] theorem wp_pure' (m : Monitor E A σ) (a : α) (Q : σ → α → Prop) (s : σ) :
    wp m (Pure.pure a) Q s ↔ Q s a := Iff.rfl

@[simp] theorem wp_call {E : Type u} {A : E → Type w} (m : Monitor E A σ) (e : E)
    (Q : σ → A e → Prop) (s : σ) :
    wp m (call e) Q s ↔ ∀ x, Q (m s e x) x := Iff.rfl

theorem wp_mono {m : Monitor E A σ} {p : Prog E A α} {Q R : σ → α → Prop} {s : σ}
    (h : ∀ s a, Q s a → R s a) (hp : wp m p Q s) : wp m p R s := by
  induction p generalizing s with
  | pure a => exact h s a hp
  | perform e k ih => exact fun x => ih x (hp x)

@[simp] theorem wp_bind {m : Monitor E A σ} {p : Prog E A α} {f : α → Prog E A β}
    {Q : σ → β → Prop} {s : σ} :
    wp m (p >>= f) Q s ↔ wp m p (fun s a => wp m (f a) Q s) s := by
  induction p generalizing s with
  | pure a => exact Iff.rfl
  | perform e k ih => exact forall_congr' fun x => ih x

theorem wp_iff {m : Monitor E A σ} {p : Prog E A α} {Q : σ → α → Prop} {s : σ} :
    wp m p Q s ↔ ∀ tr a, Runs p tr a → Q (m.after s tr) a := by
  constructor
  · intro hp tr a hr
    induction hr generalizing s with
    | pure => exact hp
    | perform _ ih => exact ih (hp _)
  · intro h
    induction p generalizing s with
    | pure a => exact h [] a .pure
    | perform e k ih => exact fun x => ih x fun tr a hr => h (⟨e, x⟩ :: tr) a (.perform hr)

/-- As long as the answers satisfy `rely` the events satisfy `good`, and so does the result. -/
def Keeps (rely good : (e : E) → A e → Prop) : Prog E A α → (α → Prop) → Prop
  | .pure a, Q => Q a
  | .perform e k, Q => ∀ x, rely e x → good e x ∧ Keeps rely good (k x) Q

section Keeps

variable {rely good : (e : E) → A e → Prop}

@[simp] theorem keeps_pure' (a : α) (Q : α → Prop) :
    Keeps rely good (Pure.pure a : Prog E A α) Q ↔ Q a := Iff.rfl

@[simp] theorem keeps_call {E : Type u} {A : E → Type w} {rely good : (e : E) → A e → Prop}
    (e : E) (Q : A e → Prop) :
    Keeps rely good (call e) Q ↔ ∀ x, rely e x → good e x ∧ Q x := Iff.rfl

@[simp] theorem keeps_bind {p : Prog E A α} {f : α → Prog E A β} {Q : β → Prop} :
    Keeps rely good (p >>= f) Q ↔ Keeps rely good p (fun a => Keeps rely good (f a) Q) := by
  induction p with
  | pure a => exact Iff.rfl
  | perform e k ih =>
    exact forall_congr' fun x => imp_congr_right fun _ => and_congr_right fun _ => ih x

theorem keeps_of_forall {p : Prog E A α} {Q : α → Prop} (h : ∀ a, Q a) :
    Keeps rely (fun _ _ => True) p Q := by
  induction p with
  | pure a => exact h a
  | perform e k ih => exact fun x _ => ⟨trivial, ih x⟩

theorem Keeps.mono {rely' good' : (e : E) → A e → Prop} {p : Prog E A α} {Q R : α → Prop}
    (hrely : ∀ e x, rely' e x → rely e x) (hgood : ∀ e x, rely' e x → good e x → good' e x)
    (hQ : ∀ a, Q a → R a) (hp : Keeps rely good p Q) : Keeps rely' good' p R := by
  induction p with
  | pure a => exact hQ a hp
  | perform e k ih =>
    intro x hx
    obtain ⟨hgood', hrest⟩ := hp x (hrely e x hx)
    exact ⟨hgood e x hx hgood', ih x hrest⟩

theorem Keeps.bind {p : Prog E A α} {f : α → Prog E A β} {Q : α → Prop} {R : β → Prop}
    (hp : Keeps rely good p Q) (hf : ∀ a, Q a → Keeps rely good (f a) R) :
    Keeps rely good (p >>= f) R :=
  keeps_bind.mpr (hp.mono (fun _ _ h => h) (fun _ _ _ h => h) hf)

theorem Keeps.run {p : Prog E A α} {Q : α → Prop} {tr : List (Event E A)} {a : α}
    (hp : Keeps rely good p Q) (hr : Runs p tr a) (hrely : ∀ ev ∈ tr, rely ev.1 ev.2) :
    (∀ ev ∈ tr, good ev.1 ev.2) ∧ Q a := by
  induction hr with
  | pure => exact ⟨nofun, hp⟩
  | perform hr ih =>
    obtain ⟨hgood, hrest⟩ := hp _ (hrely _ (.head _))
    obtain ⟨hgood', hQ⟩ := ih hrest fun ev hev => hrely ev (.tail _ hev)
    refine ⟨?_, hQ⟩
    intro ev hev
    rcases List.mem_cons.mp hev with rfl | hev
    · exact hgood
    · exact hgood' ev hev

theorem Keeps.steps {p q : Prog E A α} {Q : α → Prop} {tr : List (Event E A)}
    (hp : Keeps rely good p Q) (hs : Steps p tr q) (hrely : ∀ ev ∈ tr, rely ev.1 ev.2) :
    (∀ ev ∈ tr, good ev.1 ev.2) ∧ Keeps rely good q Q := by
  induction hs with
  | refl => exact ⟨nofun, hp⟩
  | perform hs ih =>
    obtain ⟨hgood, hrest⟩ := hp _ (hrely _ (.head _))
    obtain ⟨hgood', hq⟩ := ih hrest fun ev hev => hrely ev (.tail _ hev)
    refine ⟨?_, hq⟩
    intro ev hev
    rcases List.mem_cons.mp hev with rfl | hev
    · exact hgood
    · exact hgood' ev hev

/-- All events are good as long as the answers are, however far the program gets. -/
theorem keeps_iff_steps_if {p : Prog E A α} :
    Keeps rely good p (fun _ => True) ↔
      ∀ tr q, Steps p tr q → (∀ ev ∈ tr, rely ev.1 ev.2) → ∀ ev ∈ tr, good ev.1 ev.2 := by
  constructor
  · intro hp tr q hs hrely
    exact (hp.steps hs hrely).1
  · intro h
    induction p with
    | pure a => trivial
    | perform e k ih =>
      intro x hx
      refine ⟨?_, ih x fun tr q hs hrely ev hev => ?_⟩
      · exact h _ _ (.perform .refl) (List.forall_mem_singleton.mpr hx) ⟨e, x⟩ (.head _)
      · exact h _ _ (.perform hs) (List.forall_mem_cons.mpr ⟨hx, hrely⟩) ev (.tail _ hev)

theorem keeps_iff_steps {p : Prog E A α} :
    Keeps (fun _ _ => True) good p (fun _ => True) ↔
      ∀ tr q, Steps p tr q → ∀ ev ∈ tr, good ev.1 ev.2 := by
  simp only [keeps_iff_steps_if, implies_true, true_implies]

end Keeps

/-- As long as the answers satisfy `rely` every event is good in the state that the monitor is in, and
so is the result. -/
def KeepsWith (m : Monitor E A σ) (rely : (e : E) → A e → Prop)
    (good : σ → (e : E) → A e → Prop) : Prog E A α → (σ → α → Prop) → σ → Prop
  | .pure a, Q, s => Q s a
  | .perform e k, Q, s => ∀ x, rely e x → good s e x ∧ KeepsWith m rely good (k x) Q (m s e x)

section KeepsWith

variable {m : Monitor E A σ} {rely : (e : E) → A e → Prop} {good : σ → (e : E) → A e → Prop}

theorem keepsWith_bind {p : Prog E A α} {f : α → Prog E A β} {Q : σ → β → Prop} {s : σ} :
    KeepsWith m rely good (p >>= f) Q s ↔
      KeepsWith m rely good p (fun s a => KeepsWith m rely good (f a) Q s) s := by
  induction p generalizing s with
  | pure a => exact Iff.rfl
  | perform e k ih =>
    exact forall_congr' fun x => imp_congr_right fun _ => and_congr_right fun _ => ih x

@[simp] theorem keepsWith_call {E : Type u} {A : E → Type w} {m : Monitor E A σ}
    {rely : (e : E) → A e → Prop} {good : σ → (e : E) → A e → Prop} (e : E) (Q : σ → A e → Prop) (s : σ) :
    KeepsWith m rely good (call e) Q s ↔ ∀ x, rely e x → good s e x ∧ Q (m s e x) x := Iff.rfl

theorem KeepsWith.mono {p : Prog E A α} {Q R : σ → α → Prop} {s : σ} (h : ∀ s a, Q s a → R s a)
    (hp : KeepsWith m rely good p Q s) : KeepsWith m rely good p R s := by
  induction p generalizing s with
  | pure a => exact h s a hp
  | perform e k ih =>
    intro x hx
    obtain ⟨hgood, hrest⟩ := hp x hx
    exact ⟨hgood, ih x hrest⟩

theorem KeepsWith.bind {p : Prog E A α} {f : α → Prog E A β} {Q : σ → α → Prop}
    {R : σ → β → Prop} {s : σ} (hp : KeepsWith m rely good p Q s)
    (hf : ∀ s a, Q s a → KeepsWith m rely good (f a) R s) : KeepsWith m rely good (p >>= f) R s :=
  keepsWith_bind.mpr (hp.mono hf)

theorem KeepsWith.always {p q : Prog E A α} {Q : σ → α → Prop} {tr : List (Event E A)} {s : σ}
    (hp : KeepsWith m rely good p Q s) (hs : Steps p tr q) (hrely : ∀ ev ∈ tr, rely ev.1 ev.2) :
    m.Always good s tr := by
  induction hs generalizing s with
  | refl => trivial
  | perform _ ih =>
    obtain ⟨hgood, hrest⟩ := hp _ (hrely _ (.head _))
    exact ⟨hgood, ih hrest fun ev hev => hrely ev (.tail _ hev)⟩

theorem KeepsWith.steps {p q : Prog E A α} {Q : σ → α → Prop} {tr : List (Event E A)} {s : σ}
    (hp : KeepsWith m rely good p Q s) (hs : Steps p tr q) (hrely : ∀ ev ∈ tr, rely ev.1 ev.2) :
    KeepsWith m rely good q Q (m.after s tr) := by
  induction hs generalizing s with
  | refl => exact hp
  | perform _ ih => exact ih (hp _ (hrely _ (.head _))).2 fun ev hev => hrely ev (.tail _ hev)

theorem KeepsWith.run {p : Prog E A α} {Q : σ → α → Prop} {tr : List (Event E A)} {a : α} {s : σ}
    (hp : KeepsWith m rely good p Q s) (hr : Runs p tr a) (hrely : ∀ ev ∈ tr, rely ev.1 ev.2) :
    Q (m.after s tr) a := hp.steps hr.steps hrely

theorem KeepsWith.invariant {I : σ → Prop} (hI : ∀ s e x, I s → good s e x ∧ I (m s e x)) {p : Prog E A α}
    {s : σ} (hs : I s) : KeepsWith m rely good p (fun s _ => I s) s := by
  induction p generalizing s with
  | pure a => exact hs
  | perform e k ih => exact fun x _ => ⟨(hI s e x hs).1, ih x (hI s e x hs).2⟩

theorem KeepsWith.bind_or {I : σ → Prop} (hI : ∀ s e x, I s → good s e x ∧ I (m s e x)) {p : Prog E A α}
    {f : α → Prog E A β} {Q : σ → α → Prop} {R : σ → β → Prop} {s : σ}
    (hp : KeepsWith m rely good p (fun s a => I s ∨ Q s a) s)
    (hf : ∀ s a, Q s a → KeepsWith m rely good (f a) (fun s b => I s ∨ R s b) s) :
    KeepsWith m rely good (p >>= f) (fun s b => I s ∨ R s b) s := by
  refine hp.bind fun s a h => ?_
  rcases h with hs | hQ
  · exact (KeepsWith.invariant hI hs).mono fun _ _ => .inl
  · exact hf s a hQ

theorem KeepsWith.embed {E' : Type u} {A' : E' → Type v} {f : E → E'} {back : ∀ e, A' (f e) → A e}
    {m' : Monitor E' A' σ} {rely' : (e : E') → A' e → Prop} {good' : σ → (e : E') → A' e → Prop}
    (hm : ∀ s e x, m' s (f e) x = m s e (back e x)) (hrely : ∀ e x, rely' (f e) x → rely e (back e x))
    (hgood : ∀ s e x, good s e (back e x) → good' s (f e) x) {p : Prog E A α} {Q : σ → α → Prop} {s : σ}
    (hp : KeepsWith m rely good p Q s) : KeepsWith m' rely' good' (p.embed f back) Q s := by
  induction p generalizing s with
  | pure a => exact hp
  | perform e k ih =>
    intro x hx
    obtain ⟨hgood', hrest⟩ := hp _ (hrely e x hx)
    rw [hm]
    exact ⟨hgood s e x hgood', ih _ hrest⟩

/-- What is proved of a monitor holds of one beside which another stands still. -/
theorem KeepsWith.beside {n : Monitor E A τ} {t : τ}
    (hn : ∀ e x, n t e x = t) {Q : σ × τ → α → Prop} {p : Prog E A α} {s : σ}
    (hp : KeepsWith m rely (fun _ _ _ => True) p (fun s a => Q (s, t) a) s) :
    KeepsWith (m.prod n) rely (fun _ _ _ => True) p Q (s, t) := by
  induction p generalizing s with
  | pure a => exact hp
  | perform e k ih =>
    intro x hx
    have hstep : m.prod n (s, t) e x = (m s e x, t) := by rw [Monitor.prod, hn]
    rw [hstep]
    exact ⟨trivial, ih x (hp x hx).2⟩

theorem Keeps.keepsWith {quiet : (e : E) → A e → Prop} {I : σ → Prop} {p : Prog E A α} {Q : α → Prop}
    {s : σ} (hp : Keeps rely quiet p Q)
    (h : ∀ s e x, I s → quiet e x → good s e x ∧ I (m s e x)) (hs : I s) :
    KeepsWith m rely good p (fun s a => I s ∧ Q a) s := by
  induction p generalizing s with
  | pure a => exact ⟨hs, hp⟩
  | perform e k ih =>
    intro x hx
    obtain ⟨hquiet, hrest⟩ := hp x hx
    obtain ⟨hgood, hnext⟩ := h s e x hs hquiet
    exact ⟨hgood, ih x hrest hnext⟩

end KeepsWith

end Prog

end ProxySplit.Lib
