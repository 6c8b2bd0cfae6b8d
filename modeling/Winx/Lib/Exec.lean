import Mathlib.Tactic.Common
import Mathlib.Data.Nat.Notation

/-! # Stateful computations that may fault

A computation takes a state and either returns a value with a new state or
stops with a fault. Its postconditions are read off by weakest preconditions:
the rules are equivalences, one for each way of building a computation, so
that rewriting with them executes it.
-/

/-- A computation over states `σ` that may stop with a fault in `ε`. -/
abbrev Exec (σ ε : Type) := StateT σ (Except ε)

namespace Exec

variable {σ ε α β : Type}

/-- Running `m` from `s` either returns a value and a state in `Q`, or stops with a fault in `E`. -/
def Post (m : Exec σ ε α) (s : σ) (Q : α → σ → Prop) (E : ε → Prop) : Prop :=
  match m s with
  | .ok (a, s') => Q a s'
  | .error e => E e

/-- Running `m` from `s` returns, with a value and a state in `Q`. -/
abbrev Returns (m : Exec σ ε α) (s : σ) (Q : α → σ → Prop) : Prop :=
  Post m s Q (fun _ => False)

/-- If running `m` from `s` returns, then it does so with a value and a state in `Q`. -/
abbrev Ensures (m : Exec σ ε α) (s : σ) (Q : α → σ → Prop) : Prop :=
  Post m s Q (fun _ => True)

variable {m : Exec σ ε α} {f : α → Exec σ ε β} {s s' : σ} {Q Q' : α → σ → Prop}
  {R : β → σ → Prop} {E E' : ε → Prop}

theorem Post.mono (h : Post m s Q E) (hQ : ∀ a s', Q a s' → Q' a s') (hE : ∀ e, E e → E' e) :
    Post m s Q' E' := by
  unfold Post at *
  cases hm : m s with
  | ok r => rw [hm] at h; exact hQ _ _ h
  | error e => rw [hm] at h; exact hE _ h

theorem Returns.mono (h : Returns m s Q) (hQ : ∀ a s', Q a s' → Q' a s') : Returns m s Q' :=
  Post.mono h hQ fun _ => id

theorem Ensures.mono (h : Ensures m s Q) (hQ : ∀ a s', Q a s' → Q' a s') : Ensures m s Q' :=
  Post.mono h hQ fun _ => id

theorem Post.ensures (h : Post m s Q E) : Ensures m s Q :=
  Post.mono h (fun _ _ => id) fun _ _ => trivial

theorem Returns.ensures (h : Returns m s Q) : Ensures m s Q :=
  Post.mono h (fun _ _ => id) fun _ => False.elim

theorem returns_iff : Returns m s Q ↔ ∃ a s', m s = .ok (a, s') ∧ Q a s' := by
  unfold Returns Post
  cases m s with
  | ok r => simp [Prod.ext_iff]
  | error e => simp

theorem ensures_iff : Ensures m s Q ↔ ∀ a s', m s = .ok (a, s') → Q a s' := by
  unfold Ensures Post
  cases m s with
  | ok r => simp [Prod.ext_iff]
  | error e => simp

theorem eq_ok_iff {a : α} :
    m s = .ok (a, s') ↔ Returns m s fun b t => b = a ∧ t = s' := by
  rw [returns_iff]
  constructor
  · exact fun h => ⟨a, s', h, rfl, rfl⟩
  · rintro ⟨_, _, h, rfl, rfl⟩
    exact h

theorem eq_error_iff {e : ε} : m s = .error e ↔ Post m s (fun _ _ => False) fun e' => e' = e := by
  unfold Post
  cases m s with
  | ok r => simp
  | error e' => simp

/-- A computation that meets the postconditions of another one is the same. -/
theorem eq_of_post {m' : Exec σ ε α} (h : ∀ Q E, Post m s Q E → Post m' s Q E) : m s = m' s := by
  have h' := h (fun a t => m s = .ok (a, t)) fun e => m s = .error e
  unfold Post at h'
  cases hm : m s with
  | ok r =>
    rw [hm] at h'
    have heq := h' rfl
    cases hm' : m' s with
    | ok r' => rw [hm'] at heq; exact heq
    | error e => rw [hm'] at heq; cases heq
  | error e =>
    rw [hm] at h'
    have heq := h' rfl
    cases hm' : m' s with
    | ok r' => rw [hm'] at heq; cases heq
    | error e => rw [hm'] at heq; exact heq

/-- After a computation that returns comes the next one. -/
theorem bind_eq_ok {a : α} (h : m s = .ok (a, s')) : (m >>= f) s = f a s' := by
  change StateT.bind m f s = _
  simp only [StateT.bind]
  rw [h]
  rfl

/-- A computation that returns has run its parts. -/
theorem of_bind_eq_ok {b : β} (h : (m >>= f) s = .ok (b, s')) :
    ∃ a t, m s = .ok (a, t) ∧ f a t = .ok (b, s') := by
  change StateT.bind m f s = _ at h
  simp only [StateT.bind] at h
  cases hm : m s with
  | ok r => rw [hm] at h; exact ⟨r.1, r.2, rfl, h⟩
  | error e => rw [hm] at h; cases h

/-- A computation that stops is not followed by the next one. -/
theorem bind_eq_error {e : ε} (h : m s = .error e) : (m >>= f) s = .error e := by
  change StateT.bind m f s = _
  simp only [StateT.bind]
  rw [h]
  rfl

theorem post_of_ok {a : α} (h : m s = .ok (a, s')) : Post m s Q E ↔ Q a s' := by
  unfold Post
  rw [h]

theorem post_of_error {e : ε} (h : m s = .error e) : Post m s Q E ↔ E e := by
  unfold Post
  rw [h]

theorem post_bind_of_ok {a : α} (h : m s = .ok (a, s')) :
    Post (m >>= f) s R E ↔ Post (f a) s' R E := by
  unfold Post
  rw [bind_eq_ok h]

theorem ensures_true : Ensures m s fun _ _ => True := ensures_iff.mpr fun _ _ _ => trivial

theorem Ensures.of_ok (h : Ensures m s Q) {a : α} (hm : m s = .ok (a, s')) : Q a s' :=
  ensures_iff.mp h a s' hm

theorem Ensures.and (h : Ensures m s Q) (h' : Ensures m s Q') :
    Ensures m s (fun a s' => Q a s' ∧ Q' a s') :=
  ensures_iff.mpr fun _ _ hm => ⟨h.of_ok hm, h'.of_ok hm⟩

theorem Returns.and (h : Returns m s Q) (h' : Ensures m s Q') :
    Returns m s (fun a s' => Q a s' ∧ Q' a s') := by
  obtain ⟨a, s', hm, hQ⟩ := returns_iff.mp h
  exact returns_iff.mpr ⟨a, s', hm, hQ, h'.of_ok hm⟩

/-- A run returns, with a value and a state of which `p` holds. It is evaluated where the run is. -/
def returnsWith (x : Except ε (α × σ)) (p : α → σ → Bool) : Bool :=
  match x with
  | .ok r => p r.1 r.2
  | .error _ => false

theorem exists_of_returnsWith {x : Except ε (α × σ)} {p : α → σ → Bool}
    (h : returnsWith x p = true) : ∃ a s, x = .ok (a, s) ∧ p a s = true := by
  cases x with
  | ok r => exact ⟨r.1, r.2, rfl, h⟩
  | error e => cases h

@[simp] theorem post_pure (a : α) : Post (pure a : Exec σ ε α) s Q E ↔ Q a s := Iff.rfl

@[simp] theorem post_bind : Post (m >>= f) s R E ↔ Post m s (fun a s' => Post (f a) s' R E) E := by
  change Post (StateT.bind m f) s R E ↔ _
  unfold Post
  simp only [StateT.bind]
  cases m s with
  | ok r => rfl
  | error e => rfl

/-- A computation that never returns does not return. -/
theorem Returns.elim (h : Returns m s Q) (h' : Ensures m s fun _ _ => False) : False := by
  obtain ⟨a, s', hm, -⟩ := returns_iff.mp h
  exact h'.of_ok hm

/-- Reason about the first computation on its own. -/
theorem Post.bind (h : Post m s Q E) (hf : ∀ a s', Q a s' → Post (f a) s' R E) :
    Post (m >>= f) s R E :=
  post_bind.mpr (h.mono hf fun _ => id)

theorem Returns.post (h : Returns m s Q) (hQ : ∀ a s', Q a s' → Q' a s') : Post m s Q' E :=
  Post.mono h hQ fun _ => False.elim

theorem Returns.bind (h : Returns m s Q) (hf : ∀ a s', Q a s' → Post (f a) s' R E) :
    Post (m >>= f) s R E :=
  post_bind.mpr (Post.mono h hf fun _ => False.elim)

@[simp] theorem post_map (g : α → β) :
    Post (g <$> m) s R E ↔ Post m s (fun a s' => R (g a) s') E := by
  change Post (StateT.map g m) s R E ↔ _
  unfold Post
  simp only [StateT.map]
  cases m s with
  | ok r => rfl
  | error e => rfl

@[simp] theorem post_get {Q : σ → σ → Prop} : Post (get : Exec σ ε σ) s Q E ↔ Q s s := Iff.rfl

@[simp] theorem post_set {Q : PUnit → σ → Prop} :
    Post (set s' : Exec σ ε PUnit) s Q E ↔ Q ⟨⟩ s' := Iff.rfl

@[simp] theorem post_modify (g : σ → σ) {Q : PUnit → σ → Prop} :
    Post (modify g : Exec σ ε PUnit) s Q E ↔ Q ⟨⟩ (g s) := Iff.rfl

@[simp] theorem post_throw (e : ε) : Post (throw e : Exec σ ε α) s Q E ↔ E e := Iff.rfl

@[simp] theorem post_ite {c : Prop} [Decidable c] {m' : Exec σ ε α} :
    Post (if c then m else m') s Q E ↔ (c → Post m s Q E) ∧ (¬ c → Post m' s Q E) := by
  split <;> simp_all

end Exec
