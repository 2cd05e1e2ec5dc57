import Mathlib.Tactic
import ClassAsm.Method.Draft

/-! Steps that can fail. A chain of steps succeeds exactly if each of them does. -/

namespace ClassAsm

variable {ε ε' α β γ : Type}

theorem ok_bind {a : α} {f : α → Except ε β} : Except.ok a >>= f = f a := rfl

theorem error_bind {e : ε} {f : α → Except ε β} : Except.error e >>= f = .error e := rfl

theorem bind_eq_ok {x : Except ε α} {f : α → Except ε β} {b : β} :
    x >>= f = .ok b ↔ ∃ a, x = .ok a ∧ f a = .ok b := by
  cases x with
  | error e => exact ⟨nofun, fun ⟨_, h, _⟩ => nomatch h⟩
  | ok a => exact ⟨fun h => ⟨a, rfl, h⟩, fun ⟨_, h, hf⟩ => by cases h; exact hf⟩

theorem map_eq_ok {x : Except ε α} {f : α → β} {b : β} :
    x.map f = .ok b ↔ ∃ a, x = .ok a ∧ f a = b := by
  cases x <;> simp [Except.map]

theorem map_eq_error {x : Except ε α} {f : α → β} {e : ε} :
    x.map f = .error e ↔ x = .error e := by
  cases x <;> simp [Except.map]

theorem map_bind {x : Except ε α} {f : α → β} {g : β → Except ε γ} :
    x.map f >>= g = x >>= fun a => g (f a) := by
  cases x <;> rfl

theorem bind_map {x : Except ε α} {f : α → Except ε β} {g : β → γ} :
    (x >>= f).map g = x >>= fun a => (f a).map g := by
  cases x <;> rfl

/-- A chain fails in a given way only if one of its steps does. -/
theorem bind_ne_error {x : Except ε α} {f : α → Except ε β} {e : ε} (h : x ≠ .error e)
    (hf : ∀ a, f a ≠ .error e) : x >>= f ≠ .error e := by
  cases x with
  | error e' =>
    intro he
    cases he
    exact h rfl
  | ok a => exact hf a

theorem mapError_eq_ok {x : Except ε α} {f : ε → ε'} {a : α} :
    x.mapError f = .ok a ↔ x = .ok a := by
  cases x <;> simp [Except.mapError]

theorem exists_eq_ok {x : Except ε α} (h : x.isOk = true) : ∃ a, x = .ok a := by
  cases x with
  | error e => cases h
  | ok a => exact ⟨a, rfl⟩

theorem Draft.check_eq_ok {d : Draft} {r : Except Failure α} {a : α} :
    d.check r = .ok a ↔ r = .ok a := mapError_eq_ok

theorem foldlM_nil_eq_ok {f : β → α → Except ε β} {b c : β} :
    [].foldlM f b = .ok c ↔ b = c := by
  change Except.ok b = Except.ok c ↔ _
  simp

theorem foldlM_cons_eq_ok {f : β → α → Except ε β} {a : α} {as : List α} {b c : β} :
    (a :: as).foldlM f b = .ok c ↔ ∃ b', f b a = .ok b' ∧ as.foldlM f b' = .ok c := by
  rw [List.foldlM_cons, bind_eq_ok]

/-- What holds before a chain of steps, and what each step that succeeds keeps, holds behind it. It
may speak of the steps that were taken. -/
theorem foldlM_invariant {P : List α → β → Prop} {f : β → α → Except ε β} {as : List α} {b c : β}
    (h : as.foldlM f b = .ok c) (start : P [] b)
    (step : ∀ before, ∀ a ∈ as, ∀ b b', P before b → f b a = .ok b' → P (before ++ [a]) b') :
    P as c := by
  induction as using List.reverseRecOn generalizing c with
  | nil => exact foldlM_nil_eq_ok.1 h ▸ start
  | append_singleton as a ih =>
    rw [List.foldlM_append, bind_eq_ok] at h
    obtain ⟨b', first, last⟩ := h
    obtain ⟨b'', taken, done⟩ := foldlM_cons_eq_ok.1 last
    rw [foldlM_nil_eq_ok] at done
    have kept := ih first fun before a ha => step before a (List.mem_append_left _ ha)
    exact step as a (List.mem_append_right _ (List.mem_singleton_self a)) b' c kept (done ▸ taken)

/-- Each result comes from the entry at its place. -/
theorem forall₂_of_mapM {f : α → Except ε β} {as : List α} {bs : List β} (h : as.mapM f = .ok bs) :
    List.Forall₂ (fun a b => f a = .ok b) as bs := by
  induction as generalizing bs with
  | nil =>
    cases h
    exact .nil
  | cons a as ih =>
    simp only [List.mapM_cons, bind_eq_ok, pure, Except.pure, Except.ok.injEq] at h
    obtain ⟨b, hb, bs, hbs, rfl⟩ := h
    exact .cons hb (ih hbs)

end ClassAsm
