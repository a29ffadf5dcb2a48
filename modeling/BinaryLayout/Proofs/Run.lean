import BinaryLayout.Document.Basic
import BinaryLayout.Edit.Basic

/-!
# What holds after a run

A computation of this library is a function of a state: handles, sources and a view while atoms
load, a place while they are edited, and a document outside. `Ends` and `Yields` say what holds of
the result and of the state it leaves. There is one rule for each way in which computations are put
together, so that the proof of a computation follows its text and takes from every computation it
calls nothing but what was proved of it.

## Main definitions

* `Ends`: what holds after a computation that cannot fail.
* `Yields`: what holds after a computation that may fail, by result and by failure.
* `Leaves`: a computation that does not touch a part of the state.
* `Together`: what holds after two computations, each run from a state of its own.

## Main statements

* `Ends.bind`, `Yields.bind`: one computation after another.
-/

namespace BinaryLayout

variable {κ σ α β ε : Type}

theorem ok_of_mapError {ε' : Type} {change : ε → ε'} {x : Except ε α} {a : α}
    (h : x.mapError change = .ok a) : x = .ok a := by
  cases x with
  | ok b =>
    cases h
    rfl
  | error e => cases h

theorem ok_of_map {change : α → β} {x : Except ε α} {b : β} (h : x.map change = .ok b) :
    ∃ a, x = .ok a ∧ change a = b := by
  cases x with
  | ok a => exact ⟨a, rfl, Except.ok.inj h⟩
  | error e => cases h

theorem ok_of_toOption {result : Except ε α} {a : α} (h : result.toOption = some a) :
    result = .ok a := by
  cases result with
  | error e => cases h
  | ok b =>
    cases h
    rfl

/-- A run that gave a result, by the result alone. -/
theorem run_of_toOption {run : Except ε α × σ} {a : α} (h : run.1.toOption = some a) :
    run = (.ok a, run.2) :=
  Prod.ext (ok_of_toOption h) rfl

/-- The first of the things that are left, and those after it. -/
theorem next_of_drop {all rest : List α} {x : α} {index : Nat} (h : all.drop index = x :: rest) :
    all[index]? = some x ∧ all.drop (index + 1) = rest := by
  constructor
  · rw [← List.head?_drop, h]
    rfl
  · rw [← List.tail_drop, h]
    rfl

/-- The computation, run from `s`, ends with a result and in a state that satisfy `post`. -/
def Ends (m : StateM σ α) (s : σ) (post : α → σ → Prop) : Prop := post (m s).1 (m s).2

/-- The computation, run from `s`, either gives a result, and then `ok` holds of it and the state, or
it fails, and then `failed` holds of the error and the state. -/
def Yields (m : ExceptT ε (StateM σ) α) (s : σ) (ok : α → σ → Prop) (failed : ε → σ → Prop) : Prop :=
  match (m.run s).1 with
  | .ok a => ok a (m.run s).2
  | .error e => failed e (m.run s).2

namespace Ends

variable {s : σ}

theorem pure {post : α → σ → Prop} {a : α} (h : post a s) : Ends (Pure.pure a : StateM σ α) s post :=
  h

/-- One computation after another. -/
theorem bind {m : StateM σ α} {f : α → StateM σ β} {mid : α → σ → Prop} {post : β → σ → Prop}
    (hm : Ends m s mid) (hf : ∀ a t, mid a t → Ends (f a) t post) : Ends (m >>= f) s post :=
  hf _ _ hm

/-- One computation after another, by what is said to hold between them. -/
theorem via {m : StateM σ α} {f : α → StateM σ β} {post : β → σ → Prop} (mid : α → σ → Prop)
    (hm : Ends m s mid) (hf : ∀ a t, mid a t → Ends (f a) t post) : Ends (m >>= f) s post :=
  hm.bind hf

/-- A weaker conclusion. -/
theorem mono {m : StateM σ α} {mid post : α → σ → Prop} (hm : Ends m s mid)
    (h : ∀ a t, mid a t → post a t) : Ends m s post :=
  h _ _ hm

/-- Two conclusions at once. -/
theorem and {m : StateM σ α} {p q : α → σ → Prop} (hp : Ends m s p) (hq : Ends m s q) :
    Ends m s fun a t => p a t ∧ q a t :=
  ⟨hp, hq⟩

/-- Another computation that runs the same. -/
theorem ofRun {m m' : StateM σ α} {s' : σ} {post : α → σ → Prop} (h : m s = m' s') (hm : Ends m' s' post) :
    Ends m s post := by
  rw [Ends, h]
  exact hm

/-- A conclusion that needs nothing. -/
theorem trivial (m : StateM σ α) (s : σ) : Ends m s fun a t => (a, t) = m s := rfl

end Ends

/-- The computation leaves what `view` shows of the state as it is. -/
def Leaves (view : σ → κ) (m : StateM σ α) : Prop := ∀ s, Ends m s fun _ t => view t = view s

namespace Leaves

variable {view : σ → κ}

theorem pure (a : α) : Leaves view (Pure.pure a : StateM σ α) := fun _ => rfl

theorem bind {m : StateM σ α} {f : α → StateM σ β} (hm : Leaves view m)
    (hf : ∀ a, Leaves view (f a)) : Leaves view (m >>= f) :=
  fun s => (hm s).bind fun a t ht => (hf a t).mono fun _ _ hu => hu.trans ht

end Leaves

/-! ## Two computations -/

/-- What holds of the results of two computations and of the states that they leave, each run from a
state of its own. -/
def Together (m m' : StateM σ α) (s s' : σ) (post : α → σ → α → σ → Prop) : Prop :=
  post (m s).1 (m s).2 (m' s').1 (m' s').2

namespace Together

variable {s s' : σ} {m m' : StateM σ α}

theorem pure {post : α → σ → α → σ → Prop} {a a' : α} (h : post a s a' s') :
    Together (Pure.pure a : StateM σ α) (Pure.pure a') s s' post :=
  h

/-- One pair of computations after another. -/
theorem bind {f f' : α → StateM σ β} {mid : α → σ → α → σ → Prop} {post : β → σ → β → σ → Prop}
    (hm : Together m m' s s' mid)
    (hf : ∀ a t a' t', mid a t a' t' → Together (f a) (f' a') t t' post) :
    Together (m >>= f) (m' >>= f') s s' post :=
  hf _ _ _ _ hm

/-- One pair of computations after another, by what is said to hold between them. -/
theorem via {f f' : α → StateM σ β} {post : β → σ → β → σ → Prop} (mid : α → σ → α → σ → Prop)
    (hm : Together m m' s s' mid)
    (hf : ∀ a t a' t', mid a t a' t' → Together (f a) (f' a') t t' post) :
    Together (m >>= f) (m' >>= f') s s' post :=
  hm.bind hf

/-- A weaker conclusion. -/
theorem mono {mid post : α → σ → α → σ → Prop} (hm : Together m m' s s' mid)
    (h : ∀ a t a' t', mid a t a' t' → post a t a' t') : Together m m' s s' post :=
  h _ _ _ _ hm

/-- Other computations that run the same. -/
theorem ofRun {n n' : StateM σ α} {t t' : σ} {post : α → σ → α → σ → Prop} (h : m s = n t) (h' : m' s' = n' t')
    (hn : Together n n' t t' post) : Together m m' s s' post := by
  rw [Together, h, h']
  exact hn

/-- What is known of each computation. -/
theorem each {p q : α → σ → Prop} (hm : Ends m s p) (hm' : Ends m' s' q) :
    Together m m' s s' fun a t a' t' => p a t ∧ q a' t' :=
  ⟨hm, hm'⟩

/-- What is known of the first computation alone. -/
theorem left {p : α → σ → Prop} {post : α → σ → α → σ → Prop} (hm : Ends m s p)
    (h : ∀ a t a' t', p a t → post a t a' t') : Together m m' s s' post :=
  h _ _ _ _ hm

/-- What is known of the first computation besides. -/
theorem andLeft {p : α → σ → Prop} {post : α → σ → α → σ → Prop} (hm : Together m m' s s' post)
    (h : Ends m s p) : Together m m' s s' fun a t a' t' => p a t ∧ post a t a' t' :=
  ⟨h, hm⟩

end Together

/-! ## A computation that may fail -/

namespace Yields

variable {s : σ} {failed : ε → σ → Prop}

theorem pure {ok : α → σ → Prop} {a : α} (h : ok a s) :
    Yields (Pure.pure a : ExceptT ε (StateM σ) α) s ok failed :=
  h

theorem throw {ok : α → σ → Prop} {e : ε} (h : failed e s) :
    Yields (MonadExcept.throw e : ExceptT ε (StateM σ) α) s ok failed :=
  h

/-- One computation after another; a failure of the first is that of both. -/
theorem bind {m : ExceptT ε (StateM σ) α} {f : α → ExceptT ε (StateM σ) β} {mid : α → σ → Prop}
    {ok : β → σ → Prop} (hm : Yields m s mid failed)
    (hf : ∀ a t, mid a t → Yields (f a) t ok failed) : Yields (m >>= f) s ok failed := by
  simp only [Yields, ExceptT.run] at hm
  show match (ExceptT.bindCont f (m s).1 (m s).2).1 with
    | .ok b => ok b (ExceptT.bindCont f (m s).1 (m s).2).2
    | .error e => failed e (ExceptT.bindCont f (m s).1 (m s).2).2
  cases h : (m s).1 with
  | ok a =>
    rw [h] at hm
    exact hf a _ hm
  | error e =>
    rw [h] at hm
    exact hm

/-- One computation after another, by what is said to hold between them. -/
theorem via {m : ExceptT ε (StateM σ) α} {f : α → ExceptT ε (StateM σ) β} {ok : β → σ → Prop}
    (mid : α → σ → Prop) (hm : Yields m s mid failed)
    (hf : ∀ a t, mid a t → Yields (f a) t ok failed) : Yields (m >>= f) s ok failed :=
  hm.bind hf

/-- Nothing comes after a failure. -/
theorem throw_bind {e : ε} {f : α → ExceptT ε (StateM σ) β} {ok : β → σ → Prop} (h : failed e s) :
    Yields (MonadExcept.throw e >>= f) s ok failed :=
  h

/-- Weaker conclusions. -/
theorem mono {m : ExceptT ε (StateM σ) α} {mid ok : α → σ → Prop} {lost : ε → σ → Prop}
    (hm : Yields m s mid lost) (h : ∀ a t, mid a t → ok a t) (he : ∀ e t, lost e t → failed e t) :
    Yields m s ok failed := by
  simp only [Yields] at hm ⊢
  split at hm
  · exact h _ _ hm
  · exact he _ _ hm

/-- Two conclusions at once. -/
theorem and {m : ExceptT ε (StateM σ) α} {p q : α → σ → Prop} {f g : ε → σ → Prop}
    (hp : Yields m s p f) (hq : Yields m s q g) :
    Yields m s (fun a t => p a t ∧ q a t) (fun e t => f e t ∧ g e t) := by
  simp only [Yields] at hp hq ⊢
  split at hp
  · exact ⟨hp, by simpa [*] using hq⟩
  · exact ⟨hp, by simpa [*] using hq⟩

/-- Conclusions that need nothing. -/
theorem trivial (m : ExceptT ε (StateM σ) α) (s : σ) :
    Yields m s (fun _ _ => True) fun _ _ => True := by
  rw [Yields]
  split <;> exact True.intro

/-- How a computation ends. -/
theorem itself (m : ExceptT ε (StateM σ) α) (s : σ) :
    Yields m s (fun a t => m.run s = (.ok a, t)) fun e t => m.run s = (.error e, t) := by
  rw [Yields]
  split
  · exact Prod.ext ‹_› rfl
  · exact Prod.ext ‹_› rfl

theorem modified {ok : PUnit → σ → Prop} {change : σ → σ} (h : ok ⟨⟩ (change s)) :
    Yields (modify change : ExceptT ε (StateM σ) PUnit) s ok failed :=
  h

/-- A failure that is reported as another one. -/
theorem adapt {m : ExceptT ε (StateM σ) α} {ok : α → σ → Prop} {lost : ε → σ → Prop} {change : ε → ε}
    (hm : Yields m s ok lost) (he : ∀ e t, lost e t → failed (change e) t) :
    Yields (ExceptT.adapt change m) s ok failed := by
  show match (Except.mapError change (m s).1) with
    | .ok a => ok a (m s).2
    | .error e => failed e (m s).2
  simp only [Yields, ExceptT.run] at hm
  cases h : (m s).1 with
  | ok a =>
    rw [h] at hm
    exact hm
  | error e =>
    rw [h] at hm
    exact he _ _ hm

/-- The run of a computation whose failure is handled. -/
theorem run_tryCatch {σ ε α : Type} (m : ExceptT ε (StateM σ) α)
    (handler : ε → ExceptT ε (StateM σ) α) (s : σ) :
    (MonadExcept.tryCatch m handler : ExceptT ε (StateM σ) α) s =
      match m s with
      | (.ok a, t) => (.ok a, t)
      | (.error e, t) => handler e t := by
  show (ExceptT.tryCatch m handler) s = _
  rw [ExceptT.tryCatch]
  show (match (m s).1 with
    | .ok a => (Pure.pure (.ok a) : StateM σ (Except ε α))
    | .error e => handler e) (m s).2 = _
  generalize m s = run
  obtain ⟨_ | a, t⟩ := run <;> rfl

/-- A failure that is handled. -/
theorem tryCatch {m : ExceptT ε (StateM σ) α} {handler : ε → ExceptT ε (StateM σ) α}
    {ok : α → σ → Prop} {lost : ε → σ → Prop} (hm : Yields m s ok lost)
    (hhandler : ∀ e t, lost e t → Yields (handler e) t ok failed) :
    Yields (MonadExcept.tryCatch m handler) s ok failed := by
  simp only [Yields, ExceptT.run] at hm ⊢
  rw [run_tryCatch]
  generalize m s = run at hm
  obtain ⟨e | a, t⟩ := run
  · exact hhandler e t hm
  · exact hm

/-- What a computation that gave a result left. -/
theorem of_ok {m : ExceptT ε (StateM σ) α} {ok : α → σ → Prop} {a : α} {t : σ}
    (h : Yields m s ok failed) (hrun : m.run s = (.ok a, t)) : ok a t := by
  simpa [Yields, hrun] using h

/-- What a computation that failed left. -/
theorem of_error {m : ExceptT ε (StateM σ) α} {ok : α → σ → Prop} {e : ε}
    (h : Yields m s ok failed) (hrun : (m.run s).1 = .error e) : failed e (m.run s).2 := by
  simpa [Yields, hrun] using h

/-- A computation that does not fail gives a result. -/
theorem succeeds {m : ExceptT ε (StateM σ) α} {ok : α → σ → Prop} (h : Yields m s ok failed)
    (hnot : ∀ e t, ¬ failed e t) : ∃ a t, m.run s = (.ok a, t) ∧ ok a t := by
  rw [Yields] at h
  generalize m.run s = run at h
  obtain ⟨e | a, t⟩ := run
  · exact absurd h (hnot e t)
  · exact ⟨a, t, rfl, h⟩

/-- A computation that gives no result fails. -/
theorem fails {m : ExceptT ε (StateM σ) α} {ok : α → σ → Prop} (h : Yields m s ok failed)
    (hnot : ∀ a t, ¬ ok a t) : ∃ e t, m.run s = (.error e, t) ∧ failed e t := by
  rw [Yields] at h
  generalize m.run s = run at h
  obtain ⟨e | a, t⟩ := run
  · exact ⟨e, t, rfl, h⟩
  · exact absurd h (hnot a t)

/-- What holds of the result, whichever it is, and of the state. -/
theorem result {m : ExceptT ε (StateM σ) α} {P : Except ε α → σ → Prop}
    (h : Yields m s (fun a t => P (.ok a) t) fun e t => P (.error e) t) : P (m.run s).1 (m.run s).2 := by
  rw [Yields] at h
  split at h
  · rename_i hok
    rwa [hok]
  · rename_i herror
    rwa [herror]

/-- What a computation left, with or without a result. -/
theorem of_run {m : ExceptT ε (StateM σ) α} {inv : σ → Prop}
    (h : Yields m s (fun _ t => inv t) (fun _ t => inv t)) : inv (m.run s).2 := by
  simp only [Yields] at h
  split at h <;> exact h

end Yields

end BinaryLayout
