import Mathlib.Data.List.Forall2
import Mathlib.Data.List.Perm.Basic
import Mathlib.Order.Compare
import Mathlib.Order.Lattice
import Std.Data.ExtTreeMap.Lemmas

/-! Folding a list into an ordered map, one key an item. -/
namespace Glia.Kit

theorem foldl_max_spec {α : Type*} [LinearOrder α] (l : List α) (a : α) :
    a ≤ l.foldl max a ∧ (∀ x ∈ l, x ≤ l.foldl max a) ∧
      (l.foldl max a = a ∨ l.foldl max a ∈ l) := by
  induction l generalizing a with
  | nil => simp
  | cons y rest ih =>
    obtain ⟨above, each, reached⟩ := ih (max a y)
    rw [List.foldl_cons]
    refine ⟨(le_max_left a y).trans above, fun x mem => ?_, ?_⟩
    · rcases List.mem_cons.mp mem with rfl | mem
      · exact (le_max_right a x).trans above
      · exact each x mem
    · rcases reached with eq | mem
      · rw [eq]
        rcases le_total a y with h | h
        · rw [max_eq_right h]
          exact .inr List.mem_cons_self
        · rw [max_eq_left h]
          exact .inl rfl
      · exact .inr (List.mem_cons_of_mem _ mem)

abbrev OrdMap (κ β : Type*) [LinearOrder κ] := Std.ExtTreeMap κ β compare

namespace OrdMap
variable {κ β : Type*} [LinearOrder κ] {m m' : OrdMap κ β}

theorem ext_get (h : ∀ k : κ, m[k]? = m'[k]?) : m = m' := Std.ExtTreeMap.ext_getElem? h

theorem mem_toList {k : κ} {v : β} : (k, v) ∈ m.toList ↔ m[k]? = some v :=
  Std.ExtTreeMap.mem_toList_iff_getElem?_eq_some

theorem get_map {γ : Type*} (f : κ → β → γ) (k : κ) : (m.map f)[k]? = m[k]?.map (f k) := by
  rw [Std.ExtTreeMap.getElem?_map]

theorem get_filter (p : κ → β → Bool) (k : κ) : (m.filter p)[k]? = m[k]?.filter (p k) := by
  rw [Std.ExtTreeMap.getElem?_filter']

theorem get_insert (k : κ) (v : β) (k' : κ) :
    (m.insert k v)[k']? = if k = k' then some v else m[k']? := by
  rw [Std.ExtTreeMap.getElem?_insert]
  by_cases same : k = k'
  · simp [same]
  · have apart : compare k k' ≠ .eq := fun e => same (compare_eq_iff_eq.mp e)
    rw [if_neg same, if_neg apart]

theorem contains_eq_isSome (k : κ) : m.contains k = m[k]?.isSome :=
  Std.ExtTreeMap.contains_eq_isSome_getElem?

theorem filterMap_toList_congr {β' γ : Type*} {n : OrdMap κ β'} {f : κ → β → Option γ}
    {g : κ → β' → Option γ} (h : ∀ k : κ, m[k]?.bind (f k) = n[k]?.bind (g k)) :
    m.toList.filterMap (fun e => f e.1 e.2) = n.toList.filterMap fun e => g e.1 e.2 := by
  have same : m.filterMap f = n.filterMap g := by
    apply ext_get
    intro k
    rw [Std.ExtTreeMap.getElem?_filterMap', Std.ExtTreeMap.getElem?_filterMap', h k]
  have listed := congrArg (fun t : OrdMap κ γ => t.toList.map Prod.snd) same
  simpa [List.map_filterMap, Option.map_map, Function.comp_def] using listed

theorem forall₂_toList {R : κ × β → κ × β → Prop}
    (h : ∀ k : κ, (m[k]? = none ∧ m'[k]? = none) ∨
      ∃ v v', m[k]? = some v ∧ m'[k]? = some v' ∧ R (k, v) (k, v')) :
    List.Forall₂ R m.toList m'.toList := by
  obtain ⟨both, left, right⟩ : ∃ both : OrdMap κ (β × β),
      m = both.map (fun _ p => p.1) ∧ m' = both.map (fun _ p => p.2) := by
    refine ⟨m.map fun k v => (v, m'[k]?.getD v), ext_get fun k => ?_, ext_get fun k => ?_⟩
    · cases hk : m[k]? <;> simp [hk]
    · obtain ⟨none_left, none_right⟩ | ⟨v, v', some_left, some_right, _⟩ := h k
      · simp [none_left, none_right]
      · simp [some_left, some_right]
  subst left right
  rw [Std.ExtTreeMap.toList_map, Std.ExtTreeMap.toList_map, List.forall₂_map_left_iff,
    List.forall₂_map_right_iff, List.forall₂_same]
  rintro ⟨k, v, v'⟩ mem
  have held := mem_toList.mp mem
  obtain ⟨none_left, -⟩ | ⟨w, w', some_left, some_right, related⟩ := h k
  · simp [held] at none_left
  · simp only [Std.ExtTreeMap.getElem?_map, held, Option.map_some, Option.some.injEq]
      at some_left some_right
    subst some_left some_right
    exact related

end OrdMap

section Gather
variable {ι κ β : Type*} [LinearOrder κ]

def gather (key : ι → κ) (step : ι → Option β → Option β) (m : OrdMap κ β) (l : List ι) :
    OrdMap κ β :=
  l.foldl (fun m x => m.alter (key x) (step x)) m

variable (key : ι → κ) (step : ι → Option β → Option β) (m : OrdMap κ β)

@[simp] theorem gather_nil : gather key step m [] = m := rfl

@[simp] theorem gather_cons (x : ι) (l : List ι) :
    gather key step m (x :: l) = gather key step (m.alter (key x) (step x)) l := rfl

theorem gather_append (l l' : List ι) :
    gather key step m (l ++ l') = gather key step (gather key step m l) l' := by
  simp [gather]

theorem getElem?_gather (l : List ι) (k : κ) :
    (gather key step m l)[k]? =
      (l.filter fun x => key x = k).foldl (fun o x => step x o) m[k]? := by
  induction l generalizing m with
  | nil => rfl
  | cons x l ih =>
    rw [gather_cons, ih, Std.ExtTreeMap.getElem?_alter]
    by_cases h : key x = k
    · simp [h]
    · have apart : compare (key x) k ≠ .eq := fun e => h (compare_eq_iff_eq.mp e)
      simp [h, apart]

theorem getElem?_gather_map {ι' κ' : Type*} [LinearOrder κ'] {key' : ι' → κ'}
    {step' : ι' → Option β → Option β} {m' : OrdMap κ' β} {f : ι → ι'} {ρ : κ → κ'}
    (inj : Function.Injective ρ) (keyed : ∀ x, key' (f x) = ρ (key x))
    (stepped : ∀ x, step' (f x) = step x) (l : List ι) {k : κ} (start : m'[ρ k]? = m[k]?) :
    (gather key' step' m' (l.map f))[ρ k]? = (gather key step m l)[k]? := by
  rw [getElem?_gather, getElem?_gather, List.filter_map, List.foldl_map, start]
  simp only [Function.comp_def, keyed, stepped, inj.eq_iff]

theorem gather_eq_of_entries {m' : OrdMap κ β} {l l' : List ι}
    (h : ∀ k, (l.filter fun x => key x = k).foldl (fun o x => step x o) m[k]? =
      (l'.filter fun x => key x = k).foldl (fun o x => step x o) m'[k]?) :
    gather key step m l = gather key step m' l' := by
  apply OrdMap.ext_get
  intro k
  rw [getElem?_gather, getElem?_gather, h k]

end Gather

theorem foldl_push {κ β : Type*} (items : List (κ × β)) (held : Option (List β)) :
    (items.foldl (fun seen e => some (seen.getD [] ++ [e.2])) held).getD [] =
      held.getD [] ++ items.map Prod.snd := by
  induction items generalizing held with
  | nil => simp
  | cons e items ih => simp [ih]

theorem getElem?_gather_push {κ β : Type*} [LinearOrder κ] (items : List (κ × β)) (k : κ) :
    ((gather Prod.fst (fun e seen => some (seen.getD [] ++ [e.2])) ∅ items :
      OrdMap κ (List β))[k]?).getD [] = (items.filter fun e => e.1 = k).map Prod.snd := by
  have start : (∅ : OrdMap κ (List β))[k]? = none := Std.ExtTreeMap.getElem?_empty
  rw [getElem?_gather, foldl_push, start, Option.getD_none, List.nil_append]

theorem isSome_foldl_push {κ β : Type*} (items : List (κ × β)) (held : Option (List β)) :
    (items.foldl (fun seen e => some (seen.getD [] ++ [e.2])) held).isSome =
      (held.isSome || !items.isEmpty) := by
  induction items generalizing held with
  | nil => simp
  | cons e items ih => simp [ih]

theorem contains_gather_push {κ β : Type*} [LinearOrder κ] (items : List (κ × β)) (k : κ) :
    (gather Prod.fst (fun e seen => some (seen.getD [] ++ [e.2])) ∅ items :
      OrdMap κ (List β)).contains k = items.any fun e => e.1 = k := by
  have start : (∅ : OrdMap κ (List β))[k]? = none := Std.ExtTreeMap.getElem?_empty
  rw [OrdMap.contains_eq_isSome, getElem?_gather, isSome_foldl_push, start, Option.isSome_none,
    Bool.false_or, Bool.eq_iff_iff]
  simp

end Glia.Kit
