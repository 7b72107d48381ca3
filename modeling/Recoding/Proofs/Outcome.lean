import Mathlib.Tactic

/-!
# Outcomes

How computations that can fail are composed: a composition succeeds if all its parts do.
-/

namespace Recoding

section
variable {ε α β : Type} {x : Except ε α} {f : α → Except ε β}

@[simp] theorem ok_bind (a : α) (f : α → Except ε β) : (Except.ok a >>= f) = f a := rfl

@[simp] theorem pure_eq_ok (a : α) : (pure a : Except ε α) = .ok a := rfl

@[simp] theorem error_bind (e : ε) (f : α → Except ε β) : (Except.error e >>= f) = .error e := rfl

@[simp] theorem map_ok (g : α → β) (a : α) :
    (Except.ok a : Except ε α).map g = .ok (g a) := rfl

@[simp] theorem map_error (g : α → β) (e : ε) :
    (Except.error e : Except ε α).map g = .error e := rfl

theorem bind_eq_ok {b : β} : x >>= f = .ok b ↔ ∃ a, x = .ok a ∧ f a = .ok b := by
  cases x <;> simp

theorem map_eq_ok {g : α → β} {b : β} : x.map g = .ok b ↔ ∃ a, x = .ok a ∧ g a = b := by
  cases x <;> simp

theorem map_eq_error {g : α → β} {e : ε} : x.map g = .error e ↔ x = .error e := by
  cases x <;> simp

theorem eq_ok_of_toOption {a : α} (h : x.toOption = some a) : x = .ok a := by
  cases x with
  | error e => cases h
  | ok b => exact congrArg Except.ok (Option.some.inj h)

/-- A function of the result passes through the last step. -/
theorem map_bind_ok {γ : Type} (g : β → γ) : (x >>= f).map g = x >>= fun a => (f a).map g := by
  cases x <;> rfl

end

theorem mapM_eq_some_map {α β : Type} {f : α → Option β} {g : α → β} {xs : List α}
    (h : ∀ x ∈ xs, f x = some (g x)) : xs.mapM f = some (xs.map g) := by
  induction xs with
  | nil => rfl
  | cons x xs ih =>
    rw [List.mapM_cons, h x List.mem_cons_self,
      ih fun y hy => h y (List.mem_cons_of_mem x hy)]
    rfl

theorem foldlM_ok {α β ε : Type} (f : β → α → Except ε β) {xs : List α}
    (h : ∀ b, ∀ a ∈ xs, ∃ next, f b a = .ok next) (b : β) : ∃ last, xs.foldlM f b = .ok last := by
  induction xs generalizing b with
  | nil => exact ⟨b, rfl⟩
  | cons a xs ih =>
    obtain ⟨next, hnext⟩ := h b a List.mem_cons_self
    obtain ⟨last, hlast⟩ := ih (fun b x hx => h b x (List.mem_cons_of_mem _ hx)) next
    exact ⟨last, by rw [List.foldlM_cons, hnext]; exact hlast⟩

theorem mapM_some {α β : Type} {f : α → Option β} {xs : List α}
    (h : ∀ x ∈ xs, ∃ y, f x = some y) : ∃ ys, xs.mapM f = some ys := by
  induction xs with
  | nil => exact ⟨[], rfl⟩
  | cons x xs ih =>
    obtain ⟨y, hy⟩ := h x List.mem_cons_self
    obtain ⟨ys, hys⟩ := ih fun x hx => h x (List.mem_cons_of_mem _ hx)
    exact ⟨y :: ys, by rw [List.mapM_cons, hy, hys]; rfl⟩

theorem mapM_range {β : Type} {bs : List β} {f : Nat → Option β}
    (h : ∀ i (hi : i < bs.length), f i = some bs[i]) : (List.range bs.length).mapM f = some bs := by
  induction bs using List.reverseRecOn with
  | nil => rfl
  | append_singleton bs b ih =>
    have hlast := h bs.length (by simp)
    rw [List.getElem_concat_length rfl] at hlast
    have hrest : ∀ i (hi : i < bs.length), f i = some bs[i] := by
      intro i hi
      rw [h i (by simp; omega), List.getElem_append_left hi]
    rw [List.length_append, List.length_singleton, List.range_succ, List.mapM_append, ih hrest]
    simp [hlast]

theorem forall₂_mapM_some {α β : Type} {f : α → Option β} {xs : List α} {ys : List β}
    (h : xs.mapM f = some ys) : List.Forall₂ (fun x y => f x = some y) xs ys := by
  induction xs generalizing ys with
  | nil =>
    cases h
    exact List.Forall₂.nil
  | cons x xs ih =>
    rw [List.mapM_cons] at h
    obtain ⟨y, hy, h⟩ := Option.bind_eq_some_iff.mp h
    obtain ⟨rest, hrest, h⟩ := Option.bind_eq_some_iff.mp h
    cases h
    exact List.Forall₂.cons hy (ih hrest)

theorem exists_of_mapM_error {α β ε : Type} {f : α → Except ε β} {failure : ε} {xs : List α}
    (h : xs.mapM f = .error failure) : ∃ x ∈ xs, f x = .error failure := by
  induction xs with
  | nil => cases h
  | cons x xs ih =>
    rw [List.mapM_cons] at h
    cases hx : f x with
    | error own =>
      rw [hx] at h
      cases h
      exact ⟨x, List.mem_cons_self, hx⟩
    | ok y =>
      cases hrest : xs.mapM f with
      | error own =>
        rw [hx, ok_bind, hrest] at h
        cases h
        obtain ⟨z, hz, hfailed⟩ := ih hrest
        exact ⟨z, List.mem_cons_of_mem x hz, hfailed⟩
      | ok ys =>
        rw [hx, ok_bind, hrest] at h
        cases h

theorem lookup_map {α β : Type} [BEq α] [LawfulBEq α] (f : α → β) {xs : List α} {a : α}
    (h : a ∈ xs) : (xs.map fun x => (x, f x)).lookup a = some (f a) := by
  induction xs with
  | nil => cases h
  | cons x xs ih =>
    rw [List.map_cons, List.lookup_cons]
    cases hx : a == x with
    | true => rw [eq_of_beq hx]
    | false =>
      refine ih ((List.mem_cons.mp h).resolve_left ?_)
      rintro rfl
      simp at hx

/-! ## Outcomes of two computations -/

/-- Two computations that fail in the same way, or succeed with related results. -/
inductive SameOutcome {ε α β : Type} (Q : α → β → Prop) : Except ε α → Except ε β → Prop
  | error (failure : ε) : SameOutcome Q (.error failure) (.error failure)
  | ok {a : α} {b : β} (related : Q a b) : SameOutcome Q (.ok a) (.ok b)

namespace SameOutcome

section
variable {ε α β γ δ : Type} {Q : α → β → Prop} {P : γ → δ → Prop} {x : Except ε α}
  {y : Except ε β}

theorem of_eq {Q : α → α → Prop} (h : ∀ a, x = .ok a → Q a a) : SameOutcome Q x x := by
  cases x with
  | error failure => exact .error failure
  | ok a => exact .ok (h a rfl)

theorem mono {P : α → β → Prop} (h : SameOutcome Q x y)
    (hP : ∀ a b, x = .ok a → y = .ok b → Q a b → P a b) : SameOutcome P x y := by
  cases h with
  | error failure => exact .error failure
  | ok related => exact .ok (hP _ _ rfl rfl related)

theorem bind {f : α → Except ε γ} {g : β → Except ε δ} (h : SameOutcome Q x y)
    (hf : ∀ a b, x = .ok a → y = .ok b → Q a b → SameOutcome P (f a) (g b)) :
    SameOutcome P (x >>= f) (y >>= g) := by
  cases h with
  | error failure => exact .error failure
  | ok related => exact hf _ _ rfl rfl related

theorem map {f : α → γ} {g : β → δ} (h : SameOutcome Q x y)
    (hf : ∀ a b, Q a b → P (f a) (g b)) : SameOutcome P (x.map f) (y.map g) := by
  cases h with
  | error failure => exact .error failure
  | ok related => exact .ok (hf _ _ related)

theorem bind_self {x : Except ε α} {f : α → Except ε γ} {g : α → Except ε δ}
    (hf : ∀ a, x = .ok a → SameOutcome P (f a) (g a)) : SameOutcome P (x >>= f) (x >>= g) := by
  refine .bind (.of_eq (Q := Eq) fun _ _ => rfl) ?_
  rintro a _ ha - rfl
  exact hf a ha

theorem map_self {x : Except ε α} {f : α → γ} {g : α → δ} (hf : ∀ a, P (f a) (g a)) :
    SameOutcome P (x.map f) (x.map g) := by
  refine .map (.of_eq (Q := Eq) fun _ _ => rfl) ?_
  rintro a _ rfl
  exact hf a

theorem eq_map {f : α → β} (h : SameOutcome (fun a b => b = f a) x y) : y = x.map f := by
  cases h with
  | error failure => rfl
  | ok related => exact congrArg Except.ok related

theorem map_eq {f : α → γ} {g : β → γ} (h : SameOutcome (fun a b => f a = g b) x y) :
    x.map f = y.map g := by
  cases h with
  | error failure => rfl
  | ok related => exact congrArg Except.ok related

end
end SameOutcome

end Recoding
