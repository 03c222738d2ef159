import Glia.Engine.SharedImport
import Mathlib.Data.List.Induction
import Mathlib.Data.List.Nodup
import Mathlib.Data.List.Perm.Basic

/-! An import is all or nothing: each wanted row gets the first offer that fits it, whatever was
sampled, or nothing is written. -/
namespace Glia.Engine.SharedCache

open Glia.Kit (OrdMap)

section Sample
variable {l : List Nat} {n k i j : Nat}

theorem swap_perm (iIn : i < l.length) (jIn : j < l.length) :
    ∃ l', swap l i j = some l' ∧ l'.Perm l := by
  refine ⟨(l.set i l[j]).set j l[i], ?_, List.set_set_perm iIn jIn⟩
  simp [swap, List.getElem?_eq_getElem iIn, List.getElem?_eq_getElem jIn]

theorem below_lt (pos : 0 < n) (state : UInt64) : (below n state).2 < n := by
  refine Nat.div_lt_of_lt_mul ?_
  exact Nat.mul_lt_mul_of_pos_right (nextU64 state).2.toNat_lt pos

theorem shuffle_perm (rounds i : Nat) (l : List Nat) (state : UInt64)
    (inside : i + rounds ≤ l.length) :
    ∃ l', shuffle rounds i l state = some l' ∧ l'.Perm l := by
  induction rounds generalizing i l state with
  | zero => exact ⟨l, rfl, List.Perm.refl l⟩
  | succ rounds ih =>
    have offset := below_lt (n := l.length - i) (by omega) state
    have ⟨next, swapped, same⟩ := swap_perm (l := l) (i := i)
      (j := i + (below (l.length - i) state).2) (by omega) (by omega)
    have ⟨last, rest, same'⟩ := ih (i + 1) next (below (l.length - i) state).1
      (by rw [same.length_eq]; omega)
    refine ⟨last, ?_, same'.trans same⟩
    simp only [shuffle, swapped, Option.bind_eq_bind, Option.bind_some]
    exact rest

theorem sampleIndices_spec (n k : Nat) (state : UInt64) :
    ∃ picks, sampleIndices n k state = some picks ∧ picks.Nodup ∧ picks.length = min k n ∧
      ∀ j ∈ picks, j < n := by
  have ⟨l, shuffled, same⟩ := shuffle_perm (min k n) 0 (List.range n) state (by simp)
  have sorted := List.perm_insertionSort (· ≤ ·) (l.take (min k n))
  refine ⟨_, by rw [sampleIndices, shuffled, Option.map_some], ?_, ?_, fun j mem => ?_⟩
  · exact sorted.nodup_iff.mpr ((same.nodup_iff.mpr List.nodup_range).sublist (List.take_sublist _ _))
  · rw [sorted.length_eq, List.length_take, same.length_eq, List.length_range]
    omega
  · have listed := List.mem_of_mem_take (sorted.mem_iff.mp mem)
    simpa using same.mem_iff.mp listed

end Sample

section Fits
variable {π : Type} (env : Env π) (row : CacheRow)

/-- What the build's own reuse test asks of an entry. -/
def Fits (e : CacheEntry π) : Prop :=
  e.lang = row.lang ∧ e.contentHash = row.contentHash ∧
    cachedUnderOtherForm (env.moduleName e.parse) row.path row.moduleQname = false

instance (e : CacheEntry π) : Decidable (Fits env row e) := inferInstanceAs (Decidable (_ ∧ _ ∧ _))

def fitting (payload : Bytes) : Option (CacheEntry π) :=
  match env.decode payload with
  | .ok e => if Fits env row e then some e else none
  | .error _ => none

def firstOffer (fetched : List (Nat × Bytes)) : Option (Bytes × CacheEntry π) :=
  (fetched.filter fun o => o.1 = row.key).findSome? fun o => (fitting env row o.2).map (o.2, ·)

variable {env row}

theorem fitting_fits {payload : Bytes} {e : CacheEntry π} (h : fitting env row payload = some e) :
    Fits env row e := by
  unfold fitting at h
  split at h
  · split_ifs at h with fits
    exact Option.some.inj h ▸ fits
  · contradiction

theorem firstOffer_fits {fetched : List (Nat × Bytes)} {o : Bytes × CacheEntry π}
    (h : firstOffer env row fetched = some o) : Fits env row o.2 := by
  have ⟨o', _, here⟩ := List.exists_of_findSome?_eq_some h
  have ⟨e, fits, same⟩ := Option.map_eq_some_iff.mp here
  exact same ▸ fitting_fits fits

theorem check_cases (payload : Bytes) :
    (∃ e, check env row payload = .ok e ∧ fitting env row payload = some e) ∨
      (∃ why, check env row payload = .error why) ∧ fitting env row payload = none := by
  unfold check fitting
  cases env.decode payload with
  | error why => exact .inr ⟨⟨why, rfl⟩, rfl⟩
  | ok e =>
    simp only [bind, Except.bind, Fits]
    by_cases lang : e.lang = row.lang
    · by_cases hash : e.contentHash = row.contentHash
      · by_cases form : cachedUnderOtherForm (env.moduleName e.parse) row.path row.moduleQname = true
        · exact .inr (by simp [lang, hash, form])
        · exact .inl (by simp [lang, hash, form])
      · exact .inr (by simp [lang, hash])
    · exact .inr (by simp [lang])

theorem firstOffer_append (fetched : List (Nat × Bytes)) (o : Nat × Bytes) :
    firstOffer env row (fetched ++ [o]) = (firstOffer env row fetched).or
      (if o.1 = row.key then (fitting env row o.2).map (o.2, ·) else none) := by
  rw [firstOffer, firstOffer, List.filter_append, List.findSome?_append]
  congr 1
  by_cases same : o.1 = row.key <;> simp [same]

end Fits

section Index
variable {plan : List Planned} {i k : Nat}

theorem keyIndex_get (keys : (plan.map fun p => p.row.key).Nodup) :
    (keyIndex plan)[k]? = some i ↔ ∃ p, plan[i]? = some p ∧ p.row.key = k := by
  induction plan using List.reverseRecOn generalizing i with
  | nil => simp [keyIndex]
  | append_singleton plan p ih =>
    rw [List.map_append, List.nodup_append] at keys
    have step : keyIndex (plan ++ [p]) = (keyIndex plan).insert p.row.key plan.length := by
      simp [keyIndex, List.zipIdx_append]
    rw [step, Kit.OrdMap.get_insert]
    split_ifs with same
    · constructor
      · intro here
        cases here
        exact ⟨p, by simp, same⟩
      · intro ⟨q, here, qKey⟩
        by_cases before : i < plan.length
        · rw [List.getElem?_append_left before] at here
          have mem := List.mem_map_of_mem (f := fun p : Planned => p.row.key)
            (List.mem_of_getElem? here)
          exact absurd (qKey.trans same.symm) (keys.2.2 _ mem _ (by simp))
        · rw [List.getElem?_append_right (by omega)] at here
          have last : i - plan.length = 0 := by
            have := (List.getElem?_eq_some_iff.mp here).1
            simp at this
            omega
          congr 1
          omega
    · rw [ih keys.1]
      constructor
      · intro ⟨q, here, qKey⟩
        exact ⟨q, by rw [List.getElem?_append_left (List.getElem?_eq_some_iff.mp here).1, here], qKey⟩
      · intro ⟨q, here, qKey⟩
        by_cases before : i < plan.length
        · rw [List.getElem?_append_left before] at here
          exact ⟨q, here, qKey⟩
        · rw [List.getElem?_append_right (by omega)] at here
          have mem := List.mem_of_getElem? here
          rw [List.mem_singleton] at mem
          exact absurd (mem ▸ qKey) same

end Index

section Offers
variable {π : Type} {env : Env π} {plan : List Planned} {fetched : List (Nat × Bytes)}
  {o : Nat × Bytes} {i : Nat} {p : Planned}

def slots (env : Env π) (plan : List Planned) (fetched : List (Nat × Bytes)) :
    List (Option (Bytes × CacheEntry π)) :=
  plan.map fun p => firstOffer env p.row fetched

theorem slots_get (fetched : List (Nat × Bytes)) (here : plan[i]? = some p) :
    (slots env plan fetched)[i]? = some (firstOffer env p.row fetched) := by
  simp [slots, here]

theorem slots_append_other (other : ∀ p ∈ plan, p.row.key ≠ o.1) :
    slots env plan (fetched ++ [o]) = slots env plan fetched := by
  refine List.map_congr_left fun p mem => ?_
  rw [firstOffer_append, if_neg (other p mem).symm, Option.or_none]

theorem slots_append (keys : (plan.map fun p => p.row.key).Nodup) (here : plan[i]? = some p)
    (named : p.row.key = o.1) :
    slots env plan (fetched ++ [o]) = (slots env plan fetched).set i
      ((firstOffer env p.row fetched).or ((fitting env p.row o.2).map (o.2, ·))) := by
  apply List.ext_getElem?
  intro j
  rw [List.getElem?_set, slots, List.getElem?_map]
  by_cases same : i = j
  · subst same
    have ⟨inside, value⟩ := List.getElem?_eq_some_iff.mp here
    simp [slots, inside, firstOffer_append, value, named]
  · rw [if_neg same, slots, List.getElem?_map]
    cases there : plan[j]? with
    | none => rfl
    | some q =>
      have apart : o.1 ≠ q.row.key := by
        intro again
        have hi : (plan.map fun p => p.row.key)[i]? = some o.1 := by simp [here, named]
        have hj : (plan.map fun p => p.row.key)[j]? = some o.1 := by simp [there, again]
        exact same ((List.getElem?_inj (List.getElem?_eq_some_iff.mp hi).1 keys).mp
        (hi.trans hj.symm))
      simp [firstOffer_append, apart]

/-- The slots hold each row's first fitting offer, and every offer is counted once. -/
structure Took (env : Env π) (plan : List Planned) (fetched : List (Nat × Bytes)) (s : Taking π) :
    Prop where
  taken : s.taken = slots env plan fetched
  counted : s.taken.countP Option.isSome + s.rejections.length = fetched.length

theorem Took.note {s : Taking π} (h : Took env plan fetched s) (what : Rejected) (why : String)
    (same : slots env plan (fetched ++ [o]) = slots env plan fetched) :
    Took env plan (fetched ++ [o]) (s.note what why) where
  taken := h.taken.trans same.symm
  counted := by
    have counted := h.counted
    simp only [Taking.note, List.length_append, List.length_singleton]
    omega

/-- One offer is taken by the row it names when nothing fitted before, and noted otherwise. -/
theorem offer_took (keys : (plan.map fun p => p.row.key).Nodup) {s : Taking π}
    (h : Took env plan fetched s) (o : Nat × Bytes) :
    Took env plan (fetched ++ [o]) (offer env plan s o) := by
  unfold offer
  cases found : (keyIndex plan)[o.1]? with
  | none =>
    refine h.note _ _ (slots_append_other fun p mem named => ?_)
    have ⟨i, here⟩ := List.mem_iff_getElem?.mp mem
    rw [(keyIndex_get keys).mpr ⟨p, here, named⟩] at found
    contradiction
  | some i =>
    have ⟨p, here, named⟩ := (keyIndex_get keys).mp found
    have slot : (slots env plan fetched)[i]? = some (firstOffer env p.row fetched) :=
      slots_get fetched here
    have step : slots env plan (fetched ++ [o]) = (slots env plan fetched).set i
        ((firstOffer env p.row fetched).or ((fitting env p.row o.2).map (o.2, ·))) :=
      slots_append keys here named
    have kept (x : Option (Bytes × CacheEntry π)) (same : firstOffer env p.row fetched = x)
        (again : x.or ((fitting env p.row o.2).map (o.2, ·)) = x) :
        slots env plan (fetched ++ [o]) = slots env plan fetched := by
      rw [step, same, again, ← same]
      have ⟨inside, value⟩ := List.getElem?_eq_some_iff.mp slot
      rw [← value, List.set_getElem_self]
    simp only [here, h.taken, slot, Option.join_some]
    cases first : firstOffer env p.row fetched with
    | some x => exact h.note _ _ (kept _ first rfl)
    | none =>
      simp only [Option.isSome_none, Bool.false_eq_true, if_false]
      obtain ⟨e, accepted, fits⟩ | ⟨⟨why, refused⟩, unfit⟩ := @check_cases _ env p.row
        o.2
      · rw [accepted]
        have ⟨inside, value⟩ := List.getElem?_eq_some_iff.mp slot
        constructor
        · rw [step, first, fits]
          rfl
        · have counted := h.counted
          rw [h.taken] at counted
          simp only [List.countP_set inside, value, first, List.length_append]
          simp
          omega
      · rw [refused]
        exact h.note _ _ (kept _ first (by rw [unfit]; rfl))

theorem takeOffers_took (keys : (plan.map fun p => p.row.key).Nodup)
    (fetched : List (Nat × Bytes)) : Took env plan fetched (takeOffers env plan fetched) := by
  induction fetched using List.reverseRecOn with
  | nil => constructor <;> simp [takeOffers, slots, firstOffer]
  | append_singleton fetched o ih =>
    have step := offer_took keys ih o
    rwa [takeOffers, List.foldl_append, List.foldl_cons, List.foldl_nil]

end Offers

section Accepted
variable {π : Type} {env : Env π} {plan : List Planned} {fetched : List (Nat × Bytes)}
  {taken : List (Option (Bytes × CacheEntry π))} {i : Nat}

theorem mem_acceptedRows : i ∈ acceptedRows taken ↔ (taken[i]?.join).isSome := by
  rw [acceptedRows, List.mem_filter, List.mem_range, and_iff_right_iff_imp]
  intro full
  by_contra beyond
  rw [List.getElem?_eq_none (by omega)] at full
  contradiction

theorem acceptedRows_nodup : (acceptedRows taken).Nodup := List.nodup_range.filter _

theorem acceptedRows_length : (acceptedRows taken).length = taken.countP Option.isSome := by
  induction taken using List.reverseRecOn with
  | nil => rfl
  | append_singleton taken x ih =>
    have before : (List.range taken.length).filter (fun i => ((taken ++ [x])[i]?.join).isSome) =
        acceptedRows taken := by
      apply List.filter_congr
      intro i inside
      rw [List.getElem?_append_left (List.mem_range.mp inside)]
    rw [List.countP_append, ← ih, acceptedRows, List.length_append, List.length_singleton,
      List.range_succ, List.filter_append, before, List.length_append]
    cases x <;> simp

theorem mapM_inside {α β : Type} {f : α → Option β} {l : List α}
    (inside : ∀ a ∈ l, (f a).isSome) : ∃ l', l.mapM f = some l' ∧ l.map f = l'.map some := by
  induction l with
  | nil => exact ⟨[], rfl, rfl⟩
  | cons a l ih =>
    have ⟨b, here⟩ := Option.isSome_iff_exists.mp (inside a List.mem_cons_self)
    have ⟨l', rest, same⟩ := ih fun x mem => inside x (List.mem_cons_of_mem a mem)
    exact ⟨b :: l', by simp [here, rest], by simp [here, same]⟩

theorem nodup_picked {α : Type} {l : List α} {picks : List Nat} (once : l.Nodup)
    (apart : picks.Nodup) (inside : ∀ j ∈ picks, j < l.length) :
    (picks.map (l[·]?)).Nodup := by
  refine apart.map_on ?_
  intro j mem j' _ same
  exact (List.getElem?_inj (inside j mem) once).mp same

/-- How many accepted rows are parsed again. -/
def Verify.size (verify : Verify) (accepted : Nat) : Nat :=
  match verify with
  | .all => accepted
  | .count k => min k accepted

structure Sampled (env : Env π) (plan : List Planned) (fetched : List (Nat × Bytes))
    (verify : Verify) (sample : List (Planned × Bytes)) : Prop where
  once : (sample.map Prod.fst).Nodup
  size : sample.length = verify.size
    (plan.countP fun p => (firstOffer env p.row fetched).isSome)
  accepted : ∀ s ∈ sample, s.1 ∈ plan ∧
    ∃ e, firstOffer env s.1.row fetched = some (s.2, e)

theorem countP_slots : (slots env plan fetched).countP Option.isSome =
    plan.countP fun p => (firstOffer env p.row fetched).isSome := by
  rw [slots, List.countP_map]
  rfl

/-- The sample never runs out of range and picks distinct accepted rows. -/
theorem sampled_spec (keys : (plan.map fun p => p.row.key).Nodup) (verify : Verify)
    (state : UInt64) : ∃ sample, sampled plan (slots env plan fetched) verify state = some sample ∧
      Sampled env plan fetched verify sample := by
  have ⟨picks, picked, apart, size, inside⟩ := sampleIndices_spec
    (acceptedRows (slots env plan fetched)).length
    (verify.size (acceptedRows (slots env plan fetched)).length) state
  have ⟨rows, rowsAt, rowsMap⟩ := mapM_inside (f := ((acceptedRows (slots env plan fetched))[·]?))
    (l := picks) (by simpa using inside)
  have rowsOnce : rows.Nodup := by
    have once := nodup_picked acceptedRows_nodup apart inside
    rw [rowsMap] at once
    exact once.of_map
  have full (i : Nat) (mem : i ∈ rows) : ∃ p x, plan[i]? = some p ∧
      firstOffer env p.row fetched = some x ∧ (slots env plan fetched)[i]? = some (some x) := by
    have listed : some i ∈ picks.map ((acceptedRows (slots env plan fetched))[·]?) :=
      rowsMap ▸ List.mem_map_of_mem mem
    have ⟨j, _, here⟩ := List.mem_map.mp listed
    have taken := mem_acceptedRows.mp (List.mem_of_getElem? here)
    cases there : plan[i]? with
    | none => simp [slots, there] at taken
    | some p =>
      rw [slots_get fetched there, Option.join_some] at taken
      have ⟨x, first⟩ := Option.isSome_iff_exists.mp taken
      exact ⟨p, x, rfl, first, first ▸ slots_get fetched there⟩
  have ⟨sample, sampleAt, sampleMap⟩ := mapM_inside (l := rows) (f := fun i => do
    pure (← plan[i]?, (((slots env plan fetched)[i]?.join).map Prod.fst).getD [])) (by
      intro i mem
      have ⟨p, x, there, _⟩ := full i mem
      simp [there])
  refine ⟨sample, ?_, ?_, ?_, fun s mem => ?_⟩
  · unfold sampled
    have run : (do
        let sample ← (← some picks).mapM ((acceptedRows (slots env plan fetched))[·]?)
        sample.mapM fun i => do
          pure (← plan[i]?, (((slots env plan fetched)[i]?.join).map Prod.fst).getD [])) =
        some sample := by
      rw [Option.bind_eq_bind, Option.bind_some, rowsAt, Option.bind_eq_bind, Option.bind_some]
      exact sampleAt
    cases verify <;> simp only [Verify.size] at picked <;> simpa only [picked] using run
  · have planOnce : plan.Nodup := keys.of_map
    have firsts : (sample.map Prod.fst).map some = rows.map (plan[·]?) := by
      rw [List.map_map]
      have left := congrArg (List.map (Option.map Prod.fst)) sampleMap
      rw [List.map_map, List.map_map] at left
      refine left.symm.trans (List.map_congr_left fun i _ => ?_)
      cases there : plan[i]? <;> simp [there]
    have once := nodup_picked planOnce rowsOnce fun i mem => by
      have ⟨p, x, there, _⟩ := full i mem
      exact (List.getElem?_eq_some_iff.mp there).1
    exact (firsts ▸ once).of_map
  · have lengths := congrArg List.length sampleMap
    have lengths' := congrArg List.length rowsMap
    simp only [List.length_map] at lengths lengths'
    rw [← lengths, ← lengths', size, acceptedRows_length, countP_slots]
    cases verify <;> simp [Verify.size]
  · have listed : some s ∈ rows.map _ := sampleMap ▸ List.mem_map_of_mem mem
    have ⟨i, listed, here⟩ := List.mem_map.mp listed
    have ⟨p, x, there, first, slot⟩ := full i listed
    simp only [there, slot, Option.bind_eq_bind, Option.bind_some, Option.join_some,
      Option.map_some, Option.getD_some, Option.pure_def, Option.some.injEq] at here
    subst here
    exact ⟨List.mem_of_getElem? there, x.2, first⟩

end Accepted

section Planned
variable {π : Type} (env : Env π) (co : Checkout)

theorem planned_paths : ((planned env co).map fun p => p.row.path).Nodup := by
  have sorted := List.perm_insertionSort (fun a b : Planned => a.row.path ≤ b.row.path)
    (co.files.filterMap (planRow env co))
  rw [planned, (sorted.map _).nodup_iff]
  refine co.distinct.sublist ?_
  induction co.files with
  | nil => simp
  | cons file files ih =>
    cases row : planRow env co file with
    | none =>
      rw [List.filterMap_cons_none row]
      exact ih.cons file.1
    | some p =>
      rw [List.filterMap_cons_some row, List.map_cons, List.map_cons]
      have path : p.row.path = file.1 := by
        have ⟨lang, _, same⟩ := Option.map_eq_some_iff.mp row
        rw [← same]
      rw [path]
      exact ih.cons_cons file.1

def KeysApart : Prop :=
  ∀ p ∈ planned env co, ∀ q ∈ planned env co, p.row.key = q.row.key → p.row.path = q.row.path

variable {env co}

theorem wantedPlan_paths (sidecar : ParseCache π) :
    ((wantedPlan env co sidecar).map fun p => p.row.path).Nodup :=
  (planned_paths env co).sublist (List.filter_sublist.map _)

theorem wantedPlan_keys (keys : KeysApart env co) (sidecar : ParseCache π) :
    ((wantedPlan env co sidecar).map fun p => p.row.key).Nodup := by
  have paths := planned_paths env co
  have once : (planned env co).Nodup := paths.of_map
  refine (once.map_on ?_).sublist (List.filter_sublist.map _)
  intro p memP q memQ same
  exact List.inj_on_of_nodup_map paths memP memQ (keys p memP q memQ same)

end Planned

section Cache
variable {π : Type} {env : Env π} {plan : List Planned} {cache : ParseCache π} {path : String}
  {first : Planned → Option (Bytes × CacheEntry π)}

theorem putEntry_get (path' : String) (e : CacheEntry π) :
    (cache.putEntry path' e).entries[path]? =
      if path' = path then some e else cache.entries[path]? :=
  Kit.OrdMap.get_insert path' e path

theorem putAll_cons (p : Planned) (cache : ParseCache π) :
    putAll (p :: plan) ((p :: plan).map first) cache =
      putAll plan (plan.map first) (match first p with
        | some (_, entry) => cache.putEntry p.row.path entry
        | none => cache) := rfl

theorem putAll_other (other : ∀ p ∈ plan, p.row.path ≠ path) :
    (putAll plan (plan.map first) cache).entries[path]? = cache.entries[path]? := by
  induction plan generalizing cache with
  | nil => rfl
  | cons p plan ih =>
    rw [putAll_cons, ih fun q mem => other q (List.mem_cons_of_mem p mem)]
    cases first p with
    | none => rfl
    | some o => rw [putEntry_get, if_neg (other p List.mem_cons_self)]

theorem putAll_entry (paths : (plan.map fun p => p.row.path).Nodup) {p : Planned} (mem : p ∈ plan) :
    (putAll plan (plan.map first) cache).entries[p.row.path]? =
      ((first p).map Prod.snd).or cache.entries[p.row.path]? := by
  induction plan generalizing cache with
  | nil => contradiction
  | cons q plan ih =>
    rw [List.map_cons, List.nodup_cons] at paths
    rw [putAll_cons]
    cases List.mem_cons.mp mem with
    | inl here =>
      subst here
      have other (r : Planned) (later : r ∈ plan) : r.row.path ≠ p.row.path :=
        fun same => paths.1 (List.mem_map.mpr ⟨r, later, same⟩)
      rw [putAll_other other]
      cases first p with
      | none => rfl
      | some o =>
        rw [putEntry_get, if_pos rfl]
        rfl
    | inr later =>
      have apart : q.row.path ≠ p.row.path :=
        fun same => paths.1 (List.mem_map.mpr ⟨p, later, same.symm⟩)
      rw [ih paths.2 later]
      congr 1
      cases first q with
      | none => rfl
      | some o => rw [putEntry_get, if_neg apart]

theorem putAll_context :
    (putAll plan (plan.map first) cache).repoCanonical = cache.repoCanonical ∧
      (putAll plan (plan.map first) cache).goModules = cache.goModules := by
  induction plan generalizing cache with
  | nil => exact ⟨rfl, rfl⟩
  | cons p plan ih =>
    rw [putAll_cons, ih.1, ih.2]
    cases first p <;> exact ⟨rfl, rfl⟩

theorem cache_of_context {co : Checkout} (canonical : cache.repoCanonical = co.repoKey)
    (go : cache.goModules = co.goCtx) : co.cache cache = cache := by
  simp [Checkout.cache, ParseCache.validateContext, canonical, go]

theorem cache_context (co : Checkout) (sidecar : ParseCache π) :
    (co.cache sidecar).repoCanonical = co.repoKey ∧ (co.cache sidecar).goModules = co.goCtx := by
  unfold Checkout.cache ParseCache.validateContext
  split_ifs with other
  · exact ⟨rfl, rfl⟩
  · simpa using other

theorem isWanted_congr {cache' : ParseCache π} {row : CacheRow}
    (same : cache.entries[row.path]? = cache'.entries[row.path]?) :
    isWanted env cache row = isWanted env cache' row := by
  simp only [isWanted, ParseCache.peek, ParseCache.entry, same]

theorem isWanted_of_fits {row : CacheRow} {e : CacheEntry π}
    (here : cache.entries[row.path]? = some e) (fits : Fits env row e) :
    isWanted env cache row = false := by
  have served : cache.peek row.path row.contentHash row.lang = some e.parse := by
    simp only [ParseCache.peek, ParseCache.entry, here, Option.filter_some, fits.1, fits.2.1,
      decide_true, Bool.and_self, if_true, Option.map_some]
  rw [isWanted, served, Option.all_some, fits.2.2]

end Cache

section Verified
variable {π : Type} {env : Env π}

def Verifies (env : Env π) (p : Planned) (offered : Bytes) : Prop :=
  ∃ parse, env.parseForCache p = .parsed parse ∧
    env.encode { contentHash := p.row.contentHash, lang := p.row.lang, parse } = .ok offered

theorem verifyOne_ok {p : Planned} {offered : Bytes} :
    verifyOne env p offered = .ok () ↔ Verifies env p offered := by
  unfold verifyOne Verifies
  cases env.parseForCache p with
  | failed e => simp
  | panicked => simp
  | parsed parse =>
    simp only [LocalParse.parsed.injEq, exists_eq_left']
    cases env.encode { contentHash := p.row.contentHash, lang := p.row.lang, parse } with
    | error e => simp
    | ok mine => by_cases same : mine = offered <;> simp [same]

theorem mapM_verified {α : Type} {f : α → Except String Unit} {l : List α}
    (each : ∀ a ∈ l, f a = .ok ()) : ∃ done, l.mapM f = .ok done := by
  induction l with
  | nil => exact ⟨[], rfl⟩
  | cons a l ih =>
    have ⟨done, rest⟩ := ih fun b mem => each b (List.mem_cons_of_mem a mem)
    exact ⟨() :: done, by simp [each a List.mem_cons_self, rest, bind, Except.bind, pure, Except.pure]⟩

theorem mapM_refused {α : Type} {f : α → Except String Unit} {l : List α}
    (one : ∃ a ∈ l, f a ≠ .ok ()) : ∃ why, l.mapM f = .error why := by
  induction l with
  | nil =>
    have ⟨a, mem, _⟩ := one
    contradiction
  | cons a l ih =>
    rw [List.mapM_cons]
    cases here : f a with
    | error why => exact ⟨why, rfl⟩
    | ok _ =>
      have ⟨b, mem, refused⟩ := one
      cases List.mem_cons.mp mem with
      | inl same => exact absurd (same ▸ here) refused
      | inr later =>
        have ⟨why, rest⟩ := ih ⟨b, later, refused⟩
        exact ⟨why, by simp [rest, bind, Except.bind]⟩

end Verified

section Result
variable {π : Type} {env : Env π} {co : Checkout}

structure Imported (env : Env π) (co : Checkout) (sidecar : ParseCache π)
    (fetched : List (Nat × Bytes)) (summary : ImportSummary) (after : ParseCache π) : Prop where
  validated : after = co.cache after ∨ summary.accepted = 0 ∧ after = sidecar
  stored : ∀ p ∈ wantedPlan env co sidecar, (co.cache after).entries[p.row.path]? =
    ((firstOffer env p.row fetched).map Prod.snd).or (co.cache sidecar).entries[p.row.path]?
  kept : ∀ path, (∀ p ∈ wantedPlan env co sidecar, p.row.path ≠ path) →
    (co.cache after).entries[path]? = (co.cache sidecar).entries[path]?
  wanted : (wanted env co after).rows =
    (wanted env co sidecar).rows.filter fun row => (firstOffer env row fetched).isNone
  accepted : summary.accepted =
    (wantedPlan env co sidecar).countP fun p => (firstOffer env p.row fetched).isSome
  offered : summary.offered = fetched.length
  refused : summary.rejected =
    (takeOffers env (wantedPlan env co sidecar) fetched).rejections.length
  total : summary.accepted + summary.rejected = summary.offered

def Interleaved (fetched offers : List (Nat × Bytes)) : Prop :=
  ∀ key, (offers.filter fun o => o.1 = key) = fetched.filter fun o => o.1 = key

theorem Interleaved.firstOffer {fetched offers : List (Nat × Bytes)}
    (same : Interleaved fetched offers) (row : CacheRow) :
    firstOffer env row offers = firstOffer env row fetched := by
  rw [SharedCache.firstOffer, same row.key, SharedCache.firstOffer]

def imported (env : Env π) (co : Checkout) (sidecar : ParseCache π)
    (fetched : List (Nat × Bytes)) : ParseCache π :=
  let plan := wantedPlan env co sidecar
  if 0 < plan.countP fun p => (firstOffer env p.row fetched).isSome then
    putAll plan (slots env plan fetched) (co.cache sidecar)
  else sidecar

theorem cache_imported (sidecar : ParseCache π) (fetched : List (Nat × Bytes)) (path : String) :
    (co.cache (imported env co sidecar fetched)).entries[path]? =
      (putAll (wantedPlan env co sidecar) (slots env (wantedPlan env co sidecar) fetched)
        (co.cache sidecar)).entries[path]? := by
  simp only [imported]
  split_ifs with some
  · have ⟨canonical, go⟩ := cache_context co sidecar
    have ⟨same, same'⟩ := @putAll_context _ (wantedPlan env co sidecar)
      (co.cache sidecar) fun p => firstOffer env p.row fetched
    rw [slots, cache_of_context (same.trans canonical) (same'.trans go)]
  · have none (p : Planned) (mem : p ∈ wantedPlan env co sidecar) :
        firstOffer env p.row fetched = none := by
      simpa using List.countP_eq_zero.mp (Nat.eq_zero_of_not_pos some) p mem
    by_cases named : ∃ p ∈ wantedPlan env co sidecar, p.row.path = path
    · have ⟨p, mem, same⟩ := named
      rw [slots, ← same, putAll_entry (wantedPlan_paths sidecar) mem, none p mem]
      rfl
    · rw [slots, putAll_other fun p mem same => named ⟨p, mem, same⟩]

theorem wanted_imported (sidecar : ParseCache π) (fetched : List (Nat × Bytes)) :
    (wanted env co (imported env co sidecar fetched)).rows =
      (wanted env co sidecar).rows.filter fun row => (firstOffer env row fetched).isNone := by
  have paths := planned_paths env co
  simp only [wanted, List.filter_map, List.filter_filter]
  congr 1
  apply List.filter_congr
  intro p mem
  simp only [Function.comp_apply]
  have slot := @cache_imported _ env co sidecar fetched p.row.path
  cases before : isWanted env (co.cache sidecar) p.row with
  | true =>
    have listed : p ∈ wantedPlan env co sidecar := List.mem_filter.mpr ⟨mem, before⟩
    rw [slots, putAll_entry (wantedPlan_paths sidecar) listed] at slot
    cases first : firstOffer env p.row fetched with
    | none =>
      rw [first] at slot
      rw [isWanted_congr slot, before]
      rfl
    | some o =>
      rw [first] at slot
      rw [isWanted_of_fits slot (firstOffer_fits first)]
      rfl
  | false =>
    have other (q : Planned) (listed : q ∈ wantedPlan env co sidecar) : q.row.path ≠ p.row.path := by
      intro same
      have ⟨memQ, wantedQ⟩ := List.mem_filter.mp listed
      rw [List.inj_on_of_nodup_map paths memQ mem same, before] at wantedQ
      contradiction
    rw [slots, putAll_other other] at slot
    rw [isWanted_congr slot, before, Bool.and_false]

/-- An import is all or nothing: unless a sampled entry differs from the local parse, each wanted
row has the first offer of its key that fits it, whatever the state sampled. -/
theorem import_exact [DecidableEq π] (keys : KeysApart env co) (sidecar : ParseCache π)
    (fetched : List (Nat × Bytes)) :
    ∃ after, ∀ offers, Interleaved fetched offers → ∃ summary,
      Imported env co sidecar offers summary after ∧
      ∀ verify state, ∃ sample,
        sampled (wantedPlan env co sidecar)
          (takeOffers env (wantedPlan env co sidecar) offers).taken verify state = some sample ∧
        Sampled env (wantedPlan env co sidecar) offers verify sample ∧
        ((∃ s ∈ sample, ¬ Verifies env s.1 s.2) → ∃ why,
          importEntries env co sidecar offers verify state = some (.error why, sidecar)) ∧
        ((∀ s ∈ sample, Verifies env s.1 s.2) →
          importEntries env co sidecar offers verify state =
            some (.ok { summary with verified := sample.length }, after)) := by
  refine ⟨imported env co sidecar fetched, fun offers same => ?_⟩
  have apart := wantedPlan_keys keys sidecar
  have took : Took env (wantedPlan env co sidecar) offers
      (takeOffers env (wantedPlan env co sidecar) offers) := takeOffers_took apart offers
  have slotsSame : slots env (wantedPlan env co sidecar) offers =
      slots env (wantedPlan env co sidecar) fetched :=
    List.map_congr_left fun p _ => same.firstOffer p.row
  have afterSame : imported env co sidecar offers = imported env co sidecar fetched := by
    simp only [imported, slotsSame, same.firstOffer]
  rw [← afterSame]
  have accepted : (acceptedRows (slots env (wantedPlan env co sidecar) offers)).length =
      (wantedPlan env co sidecar).countP fun p => (firstOffer env p.row offers).isSome := by
    rw [acceptedRows_length, countP_slots]
  have counted := took.counted
  rw [took.taken, countP_slots] at counted
  let count := (wantedPlan env co sidecar).countP fun p => (firstOffer env p.row offers).isSome
  let summary : ImportSummary :=
    { offered := offers.length
      accepted := count
      rejected := offers.length - count
      verified := 0
      written := decide (0 < count) && !(imported env co sidecar offers).same sidecar }
  refine ⟨summary, ?_, fun verify state => ?_⟩
  · constructor
    · by_cases some : 0 < count
      · left
        have ⟨canonical, go⟩ := cache_context co sidecar
        have ⟨same, same'⟩ := @putAll_context _ (wantedPlan env co sidecar)
          (co.cache sidecar) fun p => firstOffer env p.row offers
        have put : imported env co sidecar offers = putAll (wantedPlan env co sidecar)
            (slots env (wantedPlan env co sidecar) offers) (co.cache sidecar) := if_pos some
        rw [put, slots, cache_of_context (same.trans canonical) (same'.trans go)]
      · exact .inr ⟨Nat.eq_zero_of_not_pos some, if_neg some⟩
    · intro p mem
      rw [cache_imported, slots, putAll_entry (wantedPlan_paths sidecar) mem]
    · intro path other
      rw [cache_imported, slots, putAll_other other]
    · exact wanted_imported sidecar offers
    · rfl
    · rfl
    · change offers.length - count = _
      omega
    · change count + (offers.length - count) = offers.length
      omega
  · have ⟨sample, picked, spec⟩ := @sampled_spec _ env _ offers apart verify state
    refine ⟨sample, took.taken ▸ picked, spec, fun ⟨s, mem, differs⟩ => ?_, fun each => ?_⟩
    · have ⟨why, refused⟩ := mapM_refused (f := fun s : Planned × Bytes => verifyOne env s.1 s.2)
        ⟨s, mem, fun ok => differs (verifyOne_ok.mp ok)⟩
      refine ⟨why, ?_⟩
      simp only [importEntries, took.taken, picked, Option.bind_eq_bind, Option.bind_some, refused,
        Option.pure_def]
    · have ⟨done, ok⟩ := mapM_verified (f := fun s : Planned × Bytes => verifyOne env s.1 s.2)
        fun s mem => verifyOne_ok.mpr (each s mem)
      simp only [importEntries, took.taken, picked, Option.bind_eq_bind, Option.bind_some, ok,
        Option.pure_def, accepted]
      rfl

section Two

def twoEnv : Env Unit where
  stamp := "v1"
  route := fun _ => some "rust"
  moduleQname := fun _ path => pathToQname path
  digest := id
  deriveKey := fun bytes => bytes.foldl (fun n b => n * 256 + b.toNat) 1
  moduleName := fun _ => none
  decode := fun bytes => .ok
    { contentHash := .ofNat (Kit.Wire.word bytes), lang := "rust", parse := () }
  encode := fun e => .ok (Kit.Wire.le 8 e.contentHash.toNat)
  parseForCache := fun _ => .parsed ()

def twoFiles : Checkout where
  files := [("a.rs", "fn a() {}"), ("main.rs", "fn main() {}")]
  distinct := by decide
  repoKey := "/r"
  goCtx := ""
  repoLabel := "r"

theorem twoFiles_keysApart : KeysApart twoEnv twoFiles := by
  have apart : (twoFiles.files.filterMap (planRow twoEnv twoFiles)).map
      (fun p => p.row.key) |>.Nodup := by decide +kernel
  intro p memP q memQ same
  rw [planned, List.mem_insertionSort] at memP memQ
  rw [List.inj_on_of_nodup_map apart memP memQ same]

/-- The first row's own key, over the hash of its file's text. -/
def ownOffer : Nat × Bytes :=
  (((planRow twoEnv twoFiles ("a.rs", "fn a() {}")).map fun p => p.row.key).getD 0,
    Kit.Wire.le 8 (contentHash "fn a() {}").toNat)

theorem ownOffer_fits : ((wantedPlan twoEnv twoFiles {}).countP fun p =>
    (firstOffer twoEnv p.row [ownOffer, ownOffer]).isSome) = 1 := by
  decide +kernel

/-- A row offered twice is taken once. -/
theorem import_exact_two : KeysApart twoEnv twoFiles ∧ ∃ after summary,
    Imported twoEnv twoFiles {} [ownOffer, ownOffer] summary after ∧
      summary.accepted = 1 ∧ summary.rejected = 1 := by
  have ⟨after, imports⟩ := import_exact twoFiles_keysApart {} [ownOffer, ownOffer]
  have ⟨summary, done, _⟩ := imports [ownOffer, ownOffer] fun _ => rfl
  have accepted : summary.accepted = 1 := done.accepted.trans ownOffer_fits
  have total : summary.accepted + summary.rejected = 2 := done.total.trans done.offered
  exact ⟨twoFiles_keysApart, after, summary, done, accepted, by omega⟩

end Two

end Result

end Glia.Engine.SharedCache
