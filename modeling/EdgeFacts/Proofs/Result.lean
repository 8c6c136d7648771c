/-
# Steps that may fail

When a sequence of steps succeeds, and with which result: each step does, with
what the steps after it are given.

Key theorems: `bind_eq_ok_iff`, `bind_eq_error_iff`, `mapM_eq_ok_iff`, `mapM_eq_some_iff`,
`filterM_eq_ok_iff`, `exists_forall₂`.
-/
import Mathlib.Data.List.Forall2
import EdgeFacts.Analysis.Run

namespace EdgeFacts

variable {α β ε : Type}

theorem bind_eq_ok_iff {x : Except ε α} {f : α → Except ε β} {b : β} :
    (x >>= f) = .ok b ↔ ∃ a, x = .ok a ∧ f a = .ok b := by
  cases x <;> simp [bind, Except.bind]

theorem bind_eq_error_iff {x : Except ε α} {f : α → Except ε β} {e : ε} :
    (x >>= f) = .error e ↔ x = .error e ∨ ∃ a, x = .ok a ∧ f a = .error e := by
  cases x <;> simp [bind, Except.bind]

theorem map_eq_ok_iff {x : Except ε α} {f : α → β} {b : β} :
    f <$> x = .ok b ↔ ∃ a, x = .ok a ∧ f a = b := by
  cases x <;> simp [Functor.map, Except.map]

theorem map_eq_error_iff {x : Except ε α} {f : α → β} {e : ε} : f <$> x = .error e ↔ x = .error e := by
  cases x <;> simp [Functor.map, Except.map]

theorem ok_bind {a : α} {f : α → Except ε β} : (Except.ok a >>= f) = f a := rfl

theorem pure_eq_ok {a : α} : (pure a : Except ε α) = .ok a := rfl

theorem eq_ok_of_toOption {x : Except ε α} {a : α} (h : x.toOption = some a) : x = .ok a := by
  cases x with
  | ok b => exact congrArg Except.ok (Option.some.inj h)
  | error e => cases h

/-- The results of a step for each of some items, place by place. -/
theorem mapM_eq_ok_iff {f : α → Except ε β} {xs : List α} {ys : List β} :
    xs.mapM f = .ok ys ↔ List.Forall₂ (fun x y => f x = .ok y) xs ys := by
  induction xs generalizing ys with
  | nil => cases ys <;> simp [pure, Except.pure]
  | cons x xs ih =>
    rw [List.mapM_cons, bind_eq_ok_iff]
    cases ys with
    | nil => simp [bind_eq_ok_iff, pure_eq_ok]
    | cons y ys => simp [bind_eq_ok_iff, pure_eq_ok, ih]

/-- Where all steps succeed each of them does. -/
theorem exists_of_mapM {f : α → Except ε β} {xs : List α} {ys : List β} (h : xs.mapM f = .ok ys) :
    ∀ x ∈ xs, ∃ y, f x = .ok y := by
  rw [mapM_eq_ok_iff] at h
  induction h with
  | nil => exact List.forall_mem_nil _
  | cons hxy _ ih => exact List.forall_mem_cons.2 ⟨⟨_, hxy⟩, ih⟩

/-- Where the steps do not all succeed one of them fails. -/
theorem exists_error_of_mapM {f : α → Except ε β} {e : ε} : ∀ {xs : List α},
    xs.mapM f = .error e → ∃ x ∈ xs, f x = .error e
  | [], h => by cases h
  | x :: xs, h => by
    rw [List.mapM_cons] at h
    cases hx : f x with
    | error e' =>
      rw [hx] at h
      cases h
      exact ⟨x, .head _, hx⟩
    | ok y =>
      rw [hx, ok_bind] at h
      obtain ⟨z, hz, hfz⟩ := exists_error_of_mapM (map_eq_error_iff.1 h)
      exact ⟨z, .tail _ hz, hfz⟩

theorem mapM_congr {f g : α → Except ε β} : ∀ {xs : List α}, (∀ x ∈ xs, f x = g x) → xs.mapM f = xs.mapM g
  | [], _ => rfl
  | x :: xs, h => by
    rw [List.mapM_cons, List.mapM_cons, h x (.head _), mapM_congr fun y hy => h y (.tail _ hy)]

theorem exists_forall₂_of_forall {R : α → β → Prop} : ∀ {xs : List α}, (∀ x ∈ xs, ∃ y, R x y) →
    ∃ ys, List.Forall₂ R xs ys
  | [], _ => ⟨[], .nil⟩
  | x :: xs, h => by
    obtain ⟨y, hy⟩ := h x (.head _)
    obtain ⟨ys, hys⟩ := exists_forall₂_of_forall fun z hz => h z (.tail _ hz)
    exact ⟨y :: ys, .cons hy hys⟩

/-- Where each step succeeds all of them do. -/
theorem exists_mapM_eq_ok {f : α → Except ε β} {xs : List α} (h : ∀ x ∈ xs, ∃ y, f x = .ok y) :
    ∃ ys, xs.mapM f = .ok ys := by
  obtain ⟨ys, hys⟩ := exists_forall₂_of_forall h
  exact ⟨ys, mapM_eq_ok_iff.2 hys⟩

/-- Steps that succeed alike succeed alike for each of some items. -/
theorem exists_forall₂ {γ : Type} {R : α → β → Prop} {S : α → γ → Prop} {T : β → γ → Prop} {xs : List α}
    {ys : List β} (h : ∀ x ∈ xs, ∀ y, R x y → ∃ z, S x z ∧ T y z) (hr : List.Forall₂ R xs ys) :
    ∃ zs, List.Forall₂ S xs zs ∧ List.Forall₂ T ys zs := by
  induction hr with
  | nil => exact ⟨[], .nil, .nil⟩
  | cons hxy _ ih =>
    obtain ⟨z, hxz, hyz⟩ := h _ (.head _) _ hxy
    obtain ⟨zs, hxs, hys⟩ := ih fun x hx => h x (.tail _ hx)
    exact ⟨z :: zs, .cons hxz hxs, .cons hyz hys⟩

theorem forall_of_forall₂ {R : α → β → Prop} {P : β → Prop} {xs : List α} {ys : List β}
    (h : List.Forall₂ R xs ys) (hP : ∀ x y, R x y → P y) : ∀ y ∈ ys, P y := by
  induction h with
  | nil => exact List.forall_mem_nil _
  | cons hxy _ ih => exact List.forall_mem_cons.2 ⟨hP _ _ hxy, ih⟩

theorem exists_of_forall₂ {R : α → β → Prop} {xs : List α} {ys : List β} (h : List.Forall₂ R xs ys) :
    ∀ y ∈ ys, ∃ x ∈ xs, R x y :=
  forall_of_forall₂ ((List.forall₂_and_left _ _).2 ⟨fun _ hx => hx, h⟩) fun x _ hxy => ⟨x, hxy⟩

theorem forall₂_both {R S : α → β → Prop} {xs : List α} {ys : List β} (hr : List.Forall₂ R xs ys)
    (hs : List.Forall₂ S xs ys) : List.Forall₂ (fun x y => R x y ∧ S x y) xs ys := by
  induction hr with
  | nil => exact .nil
  | cons hxy _ ih =>
    cases hs with
    | cons hxy' hs => exact .cons ⟨hxy, hxy'⟩ (ih hs)

theorem forall₂_comp {γ : Type} {R : α → β → Prop} {S : β → γ → Prop} {xs : List α} {ys : List β}
    {zs : List γ} (hr : List.Forall₂ R xs ys) (hs : List.Forall₂ S ys zs) :
    List.Forall₂ (fun x z => ∃ y, R x y ∧ S y z) xs zs := by
  induction hr generalizing zs with
  | nil =>
    cases hs
    exact .nil
  | cons hxy _ ih =>
    cases hs with
    | cons hyz hs => exact .cons ⟨_, hxy, hyz⟩ (ih hs)

theorem mapM_eq_some_iff {f : α → Option β} {xs : List α} {ys : List β} :
    xs.mapM f = some ys ↔ List.Forall₂ (fun x y => f x = some y) xs ys := by
  induction xs generalizing ys with
  | nil => cases ys <;> simp
  | cons x xs ih =>
    rw [List.mapM_cons]
    cases ys <;> simp [Option.bind_eq_some_iff, ih]

/-- Whether a test succeeds with a positive answer. -/
def holds : Except ε Bool → Bool
  | .ok b => b
  | .error _ => false

theorem filterAuxM_eq_ok_iff {f : α → Except ε Bool} : ∀ {xs acc ys : List α},
    List.filterAuxM f xs acc = .ok ys ↔
      (∀ x ∈ xs, ∃ b, f x = .ok b) ∧ ys = (xs.filter fun x => holds (f x)).reverse ++ acc
  | [], acc, ys => by simp [List.filterAuxM, pure_eq_ok, eq_comm]
  | x :: xs, acc, ys => by
    rw [List.filterAuxM, bind_eq_ok_iff]
    cases hx : f x with
    | error e => simp [hx]
    | ok b =>
      have tail : ∀ {acc}, List.filterAuxM f xs acc = .ok ys ↔ _ := filterAuxM_eq_ok_iff
      simp only [Except.ok.injEq, exists_eq_left', tail, List.forall_mem_cons, hx, exists_eq', true_and]
      cases b <;> simp [hx, holds]

/-- The items that pass a test which fails for none of them. -/
theorem filterM_eq_ok_iff {f : α → Except ε Bool} {xs ys : List α} :
    xs.filterM f = .ok ys ↔ (∀ x ∈ xs, ∃ b, f x = .ok b) ∧ ys = xs.filter fun x => holds (f x) := by
  simp only [List.filterM, bind_eq_ok_iff, filterAuxM_eq_ok_iff, pure_eq_ok, Except.ok.injEq,
    List.append_nil]
  constructor
  · rintro ⟨zs, ⟨hall, rfl⟩, rfl⟩
    exact ⟨hall, List.reverse_reverse _⟩
  · rintro ⟨hall, rfl⟩
    exact ⟨_, ⟨hall, rfl⟩, List.reverse_reverse _⟩

theorem inContext_eq_ok_iff {context : Failure → Failure} {x : Except Failure α} {a : α} :
    Analysis.inContext context x = .ok a ↔ x = .ok a := by
  cases x <;> simp [Analysis.inContext]

theorem itemAt_eq_ok_iff {items : List α} {i : Nat} {a : α} :
    itemAt items i = .ok a ↔ items[i]? = some a := orFail_eq_ok_iff

end EdgeFacts
