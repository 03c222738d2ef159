import Glia.Engine.RepoLabels

/-! When the services named after repo labels stay apart: labels numbered where they are taken,
and no label a directory above another. -/
namespace Glia.Engine.Arch

open Glia.Kit (OrdMap)

section Cuts
variable {a b u v : List Char} {c : Char}

theorem cut_last (left : c ∉ u) (right : c ∉ v) (same : a ++ c :: u = b ++ c :: v) :
    a = b ∧ u = v := by
  have swapped : u.reverse ++ c :: a.reverse = v.reverse ++ c :: b.reverse := by
    simpa using congrArg List.reverse same
  have parts {x y z w : List Char} (xNot : c ∉ x) (zNot : c ∉ z)
      (eq : x ++ c :: y = z ++ c :: w) : x = z ∧ y = w := by
    have take := congrArg (List.takeWhile (· ≠ c)) eq
    have all {x : List Char} (not : c ∉ x) : ∀ d ∈ x, decide (d ≠ c) = true := fun d mem => by
      simpa using fun here : d = c => not (here ▸ mem)
    rw [List.takeWhile_append_of_pos (all xNot), List.takeWhile_append_of_pos (all zNot)] at take
    have heads : x = z := by simpa using take
    rw [heads, List.append_cancel_left_eq, List.cons.injEq] at eq
    exact ⟨heads, eq.2⟩
  have ⟨ends, starts⟩ := parts (by simpa using left) (by simpa using right) swapped
  exact ⟨List.reverse_injective starts, List.reverse_injective ends⟩

theorem dir_prefix_append (slash : '/' ∉ u) :
    a ++ ['/'] <+: b ++ u ↔ a ++ ['/'] <+: b := by
  constructor
  · intro within
    rcases Nat.lt_or_ge b.length (a ++ ['/']).length with longer | shorter
    · have ⟨rest, whole⟩ := List.prefix_of_prefix_length_le (List.prefix_append b u) within longer.le
      have some' : rest ≠ [] := fun none' => by
        rw [none', List.append_nil] at whole
        rw [whole] at longer
        omega
      rw [← whole, List.prefix_append_right_inj] at within
      have last : rest.getLast some' = '/' := by
        have ends := congrArg List.getLast? whole
        rw [List.getLast?_append_of_ne_nil _ some', List.getLast?_concat,
          List.getLast?_eq_some_getLast some', Option.some.injEq] at ends
        exact ends
      exact absurd (within.subset (last ▸ List.getLast_mem some')) slash
    · exact List.prefix_of_prefix_length_le within (List.prefix_append b u) shorter
  · exact fun within => within.trans (List.prefix_append b u)

end Cuts

section Settle
variable {names given : List (Nat × String)} {e e' : Nat × String} {i j : Nat} {l : String}

/-- A label settled after those given: numbered when one of them is the same. -/
def settle (given : List (Nat × String)) (e : Nat × String) : List (Nat × String) :=
  given ++ [(e.1, if e.2 ∈ given.map Prod.snd then suffixed e else e.2)]

def settled (names : List (Nat × String)) : List (Nat × String) := names.foldl settle []

theorem settle_ids (given : List (Nat × String)) (e : Nat × String) :
    (settle given e).map Prod.fst = given.map Prod.fst ++ [e.1] := by
  simp [settle]

theorem foldl_settle_ids (names given : List (Nat × String)) :
    (names.foldl settle given).map Prod.fst = given.map Prod.fst ++ names.map Prod.fst := by
  induction names generalizing given with
  | nil => simp
  | cons e names ih =>
    rw [List.foldl_cons, ih, settle_ids, List.append_assoc]
    rfl

theorem foldl_settle_length (names given : List (Nat × String)) :
    (names.foldl settle given).length = given.length + names.length := by
  have ids := congrArg List.length (foldl_settle_ids names given)
  simpa using ids

theorem prefix_foldl_settle (names given : List (Nat × String)) :
    given <+: names.foldl settle given := by
  induction names generalizing given with
  | nil => exact List.prefix_rfl
  | cons e names ih => exact (List.prefix_append _ _).trans (ih _)

def finalLabel (names : List (Nat × String)) (i : Nat) (e : Nat × String) : String :=
  if e.2 ∈ ((settled names).take i).map Prod.snd then suffixed e else e.2

theorem settled_getElem? (here : names[i]? = some e) :
    (settled names)[i]? = some (e.1, finalLabel names i e) := by
  have ⟨inside, at'⟩ := List.getElem?_eq_some_iff.mp here
  have size : (settled (names.take i)).length = i := by
    rw [settled, foldl_settle_length, List.length_nil, List.length_take]
    omega
  have split : settled names =
      (names.drop (i + 1)).foldl settle (settle (settled (names.take i)) e) := by
    have whole := List.take_append_drop i names
    rw [List.drop_eq_getElem_cons inside, at'] at whole
    rw [settled, settled, ← List.foldl_cons, ← List.foldl_append, whole]
  have ⟨rest, grown⟩ := prefix_foldl_settle (names.drop (i + 1))
    (settle (settled (names.take i)) e)
  rw [← split, settle, List.append_assoc] at grown
  have before : (settled names).take i = settled (names.take i) := by
    rw [← grown, List.take_left' size]
  rw [finalLabel, before, ← grown, List.getElem?_append_right size.le, size, Nat.sub_self]
  rfl

theorem mem_settled_take : l ∈ ((settled names).take i).map Prod.snd ↔
    ∃ j e', j < i ∧ names[j]? = some e' ∧ finalLabel names j e' = l := by
  have size : (settled names).length = names.length := by
    rw [settled, foldl_settle_length, List.length_nil, Nat.zero_add]
  constructor
  · intro mem
    have ⟨p, listed, same⟩ := List.mem_map.mp mem
    have ⟨j, at'⟩ := List.mem_iff_getElem?.mp listed
    rw [List.getElem?_take] at at'
    split_ifs at at' with before
    have inside := (List.getElem?_eq_some_iff.mp at').1
    have here := List.getElem?_eq_getElem (size ▸ inside : j < names.length)
    rw [settled_getElem? here, Option.some.injEq] at at'
    exact ⟨j, _, before, here, by rw [← same, ← at']⟩
  · intro ⟨j, e', before, here, same⟩
    refine List.mem_map.mpr
      ⟨(e'.1, finalLabel names j e'), List.mem_iff_getElem?.mpr ⟨j, ?_⟩, same⟩
    rw [List.getElem?_take, if_pos before, settled_getElem? here]

inductive Numbered (names : List (Nat × String)) : Nat → Prop
  | repeated {i j : Nat} {e e' : Nat × String} (here : names[i]? = some e) (before : j < i)
      (there : names[j]? = some e') (same : e'.2 = e.2) : Numbered names i
  | taken {i j : Nat} {e e' : Nat × String} (here : names[i]? = some e) (before : j < i)
      (there : names[j]? = some e') (numbered : Numbered names j) (same : suffixed e' = e.2) :
      Numbered names i

theorem numbered_iff (here : names[i]? = some e) :
    Numbered names i ↔ e.2 ∈ ((settled names).take i).map Prod.snd := by
  induction i using Nat.strongRecOn generalizing e with
  | ind i ih =>
    rw [mem_settled_take]
    constructor
    · intro
      | .repeated here' before there same =>
        obtain rfl := Option.some.inj (here.symm.trans here')
        rename_i j e'
        by_cases numbered : Numbered names j
        · have ⟨k, e'', sooner, there', same'⟩ :=
            mem_settled_take.mp ((ih j before there).mp numbered)
          exact ⟨k, e'', by omega, there', same'.trans same⟩
        · refine ⟨j, e', before, there, ?_⟩
          rw [finalLabel, if_neg fun mem => numbered ((ih j before there).mpr mem), same]
      | .taken here' before there numbered same =>
        obtain rfl := Option.some.inj (here.symm.trans here')
        refine ⟨_, _, before, there, ?_⟩
        rw [finalLabel, if_pos ((ih _ before there).mp numbered), same]
    · intro ⟨j, e', before, there, same⟩
      rw [finalLabel] at same
      split_ifs at same with mem
      · exact .taken here before there ((ih j before there).mpr mem) same
      · exact .repeated here before there same

theorem finalLabel_numbered (here : names[i]? = some e) (numbered : Numbered names i) :
    finalLabel names i e = suffixed e := if_pos ((numbered_iff here).mp numbered)

theorem finalLabel_plain (here : names[i]? = some e) (plain : ¬Numbered names i) :
    finalLabel names i e = e.2 := if_neg (mt (numbered_iff here).mpr plain)

theorem suffixed_inj : suffixed e' = suffixed e ↔ e'.2 = e.2 ∧ e'.1 % 1000 = e.1 % 1000 := by
  have hash {n : Nat} : '#' ∉ (toString n).toList := fun mem => by
    simpa using Text.isDigit_toString mem
  constructor
  · intro same
    have lists := congrArg String.toList same
    simp only [suffixed, String.toList_append, List.append_assoc] at lists
    have sharp : "#".toList = ['#'] := by decide
    rw [sharp, List.singleton_append, List.singleton_append] at lists
    have ⟨names, numbers⟩ := cut_last hash hash lists
    exact ⟨String.toList_injective names, Text.toString_inj numbers⟩
  · intro ⟨names, numbers⟩
    rw [suffixed, suffixed, names, numbers]

theorem dir_prefix_suffixed (x : String) :
    x.toList ++ ['/'] <+: (suffixed e).toList ↔ x.toList ++ ['/'] <+: e.2.toList := by
  have slash : '/' ∉ '#' :: (toString (e.1 % 1000)).toList := by
    have digit : '/' ∉ (toString (e.1 % 1000)).toList := fun mem => by
      simpa using Text.isDigit_toString mem
    simpa using digit
  have whole : (suffixed e).toList = e.2.toList ++ '#' :: (toString (e.1 % 1000)).toList := by
    simp [suffixed]
  rw [whole]
  exact dir_prefix_append slash

structure Clear (names : List (Nat × String)) : Prop where
  /-- No number repeats an earlier number of the same label. -/
  numbers {i j : Nat} {e e' : Nat × String} (here : names[i]? = some e)
    (there : names[j]? = some e') (before : j < i) (numbered : Numbered names i)
    (numbered' : Numbered names j) (same : e'.2 = e.2) : e'.1 % 1000 ≠ e.1 % 1000
  /-- No earlier label spells a later one's number out. -/
  spelt {i j : Nat} {e e' : Nat × String} (here : names[i]? = some e)
    (there : names[j]? = some e') (before : j < i) (numbered : Numbered names i)
    (plain : ¬Numbered names j) : e'.2 ≠ suffixed e
  /-- No label is a directory above another. -/
  above {i j : Nat} {e e' : Nat × String} (here : names[i]? = some e)
    (there : names[j]? = some e') (plain : ¬Numbered names i) :
    ¬e.2.toList ++ ['/'] <+: e'.2.toList
  aboveNumbered {i j : Nat} {e e' : Nat × String} (here : names[i]? = some e)
    (there : names[j]? = some e') (numbered : Numbered names i) :
    ¬(suffixed e).toList ++ ['/'] <+: e'.2.toList

structure Apart (names : List (Nat × String)) : Prop where
  ne {i j : Nat} {e e' : Nat × String} (here : names[i]? = some e) (there : names[j]? = some e')
    (before : j < i) : finalLabel names j e' ≠ finalLabel names i e
  above {i j : Nat} {e e' : Nat × String} (here : names[i]? = some e)
    (there : names[j]? = some e') :
    ¬(finalLabel names i e).toList ++ ['/'] <+: (finalLabel names j e').toList

theorem finalLabel_dir (there : names[j]? = some e') (x : String) :
    x.toList ++ ['/'] <+: (finalLabel names j e').toList ↔ x.toList ++ ['/'] <+: e'.2.toList := by
  by_cases numbered : Numbered names j
  · rw [finalLabel_numbered there numbered, dir_prefix_suffixed]
  · rw [finalLabel_plain there numbered]

theorem apart_iff : Apart names ↔ Clear names := by
  constructor
  · intro apart
    refine ⟨fun here there before numbered numbered' same numbers => ?_,
      fun here there before numbered plain same => ?_, fun here there plain => ?_,
      fun here there numbered => ?_⟩
    · refine apart.ne here there before ?_
      rw [finalLabel_numbered here numbered, finalLabel_numbered there numbered', suffixed_inj]
      exact ⟨same, numbers⟩
    · refine apart.ne here there before ?_
      rw [finalLabel_numbered here numbered, finalLabel_plain there plain, same]
    · have above := apart.above here there
      rwa [finalLabel_dir there, finalLabel_plain here plain] at above
    · have above := apart.above here there
      rwa [finalLabel_dir there, finalLabel_numbered here numbered] at above
  · intro clear
    refine ⟨@fun i j e e' here there before same => ?_, @fun i j e e' here there => ?_⟩
    · by_cases numbered : Numbered names i
      · rw [finalLabel_numbered here numbered] at same
        by_cases numbered' : Numbered names j
        · rw [finalLabel_numbered there numbered', suffixed_inj] at same
          exact clear.numbers here there before numbered numbered' same.1 same.2
        · rw [finalLabel_plain there numbered'] at same
          exact clear.spelt here there before numbered numbered' same
      · rw [finalLabel_plain here numbered] at same
        exact numbered ((numbered_iff here).mpr
          (mem_settled_take.mpr ⟨j, e', before, there, same⟩))
    · rw [finalLabel_dir there]
      by_cases numbered : Numbered names i
      · rw [finalLabel_numbered here numbered]
        exact clear.aboveNumbered here there numbered
      · rw [finalLabel_plain here numbered]
        exact clear.above here there numbered

end Settle

section Labels
variable {names given : List (Nat × String)} {labels : OrdMap Nat String}
  {s : OrdMap Nat String × OrdMap String Nat} {e : Nat × String}

structure Names (given : List (Nat × String)) (s : OrdMap Nat String × OrdMap String Nat) :
    Prop where
  labels (id : Nat) (l : String) : s.1[id]? = some l ↔ (id, l) ∈ given
  used (l : String) : (s.2[l]?).isSome = true ↔ l ∈ given.map Prod.snd
  owner (id : Nat) (l : String) : s.2[l]? = some id → (id, l) ∈ given

theorem insert_given (get : ∀ id l, labels[id]? = some l ↔ (id, l) ∈ given) {id : Nat}
    (new : id ∉ given.map Prod.fst) (l : String) (id' : Nat) (l' : String) :
    (labels.insert id l)[id']? = some l' ↔ (id', l') ∈ given ++ [(id, l)] := by
  rw [Kit.OrdMap.get_insert, List.mem_append, List.mem_singleton]
  split_ifs with same
  · subst same
    have out : (id, l') ∉ given := fun mem => new (List.mem_map_of_mem mem)
    simp [out, eq_comm]
  · have apart : id' ≠ id := fun h => same h.symm
    simp [get, apart]

theorem nameRepo_names (h : Names given s) (new : e.1 ∉ given.map Prod.fst) :
    Names (settle given e) (nameRepo s e) := by
  have clash : (s.2[e.2]?).any (· ≠ e.1) = true ↔ e.2 ∈ given.map Prod.snd := by
    rw [← h.used]
    cases here : s.2[e.2]? with
    | none => simp
    | some id =>
      have apart : id ≠ e.1 := fun same => new (same ▸ List.mem_map_of_mem (h.owner id _ here))
      simp [apart]
  have label : (if (s.2[e.2]?).any (· ≠ e.1) = true then suffixed e else e.2) =
      if e.2 ∈ given.map Prod.snd then suffixed e else e.2 := by simp only [clash]
  rw [nameRepo, label, settle]
  generalize (if e.2 ∈ given.map Prod.snd then suffixed e else e.2) = name
  refine ⟨insert_given h.labels new _, fun l => ?_, fun id l held => ?_⟩
  · rw [Kit.OrdMap.get_insert, List.map_append, List.mem_append, List.map_singleton,
      List.mem_singleton]
    split_ifs with same
    · simp [same]
    · rw [h.used, or_iff_left fun back => same back.symm]
  · rw [Kit.OrdMap.get_insert] at held
    split_ifs at held with same
    · cases held
      exact List.mem_append_right _ (by simp [same])
    · exact List.mem_append_left _ (h.owner id l held)

theorem foldl_nameRepo (h : Names given s)
    (ids : (given.map Prod.fst ++ names.map Prod.fst).Nodup) :
    Names (names.foldl settle given) (names.foldl nameRepo s) := by
  induction names generalizing given s with
  | nil => exact h
  | cons e names ih =>
    have new : e.1 ∉ given.map Prod.fst := fun old =>
      (List.nodup_append.mp ids).2.2 _ old _ (by simp) rfl
    refine ih (nameRepo_names h new) ?_
    rw [settle_ids, List.append_assoc]
    exact ids

theorem storeLabel_get (get : ∀ id l, labels[id]? = some l ↔ (id, l) ∈ given)
    (new : e.1 ∉ given.map Prod.fst) (id : Nat) (l : String) :
    (storeLabel labels e)[id]? = some l ↔ (id, l) ∈ settle given e := by
  have clash : (labels.toList.any fun l => l.2 = e.2) = true ↔ e.2 ∈ given.map Prod.snd := by
    rw [List.any_eq_true, List.mem_map]
    constructor
    · intro ⟨p, mem, same⟩
      exact ⟨p, (get _ _).mp (Kit.OrdMap.mem_toList.mp mem), by simpa using same⟩
    · intro ⟨p, mem, same⟩
      exact ⟨p, Kit.OrdMap.mem_toList.mpr ((get _ _).mpr mem), by simpa using same⟩
  simp only [storeLabel, clash, settle]
  exact insert_given get new _ id l

theorem foldl_storeLabel (get : ∀ id l, labels[id]? = some l ↔ (id, l) ∈ given)
    (ids : (given.map Prod.fst ++ names.map Prod.fst).Nodup) (id : Nat) (l : String) :
    (names.foldl storeLabel labels)[id]? = some l ↔ (id, l) ∈ names.foldl settle given := by
  induction names generalizing given labels with
  | nil => exact get id l
  | cons e names ih =>
    have new : e.1 ∉ given.map Prod.fst := fun old =>
      (List.nodup_append.mp ids).2.2 _ old _ (by simp) rfl
    exact ih (storeLabel_get get new) (by rw [settle_ids, List.append_assoc]; exact ids)

theorem firsts_of_nodup {α : Type} {l : List (Nat × α)} (ids : (l.map Prod.fst).Nodup) :
    Kit.firsts Prod.fst l = l := by
  have all (seen : Finset Nat) (out : ∀ e ∈ l, e.1 ∉ seen) :
      Kit.firstsAfter Prod.fst seen l = l := by
    induction l generalizing seen with
    | nil => rfl
    | cons e l ih =>
      have ⟨here, rest⟩ := List.nodup_cons.mp ids
      rw [Kit.firstsAfter, if_neg (out e List.mem_cons_self), ih rest]
      intro e' mem held
      rcases Finset.mem_insert.mp held with same | seen'
      · exact here (same ▸ List.mem_map_of_mem mem)
      · exact out e' (List.mem_cons_of_mem _ mem) seen'
  exact all ∅ fun _ _ => by simp

variable {entries : List (Nat × List String)} {stored : List (Nat × String)}

/-- The names settled: each path's base label, then the stored ones. -/
def baseNames (entries : List (Nat × List String)) : List (Nat × String) :=
  entries.map fun e => (e.1, baseLabel (entries.map Prod.snd) e.2)

def repoNames (entries : List (Nat × List String)) (stored : List (Nat × String)) :
    List (Nat × String) := baseNames entries ++ stored

theorem baseNames_ids (entries : List (Nat × List String)) :
    (baseNames entries).map Prod.fst = entries.map Prod.fst := by
  rw [baseNames, List.map_map]
  rfl

/-- After the rounds every label is the path's base label. -/
theorem widen_labels (plain : ∀ e ∈ entries, Plain e.2) :
    ((widen 16 (entries.map fun e => RepoRow.mk e.1 e.2 1)).map fun r => (r.id, r.label)) =
      baseNames entries := by
  let order := entries.map fun e => RepoRow.mk e.1 e.2 1
  have comps : order.map RepoRow.comps = entries.map Prod.snd := by
    rw [List.map_map]
    rfl
  have plain' : ∀ r ∈ order, Plain r.comps := fun r mem => by
    have ⟨e, listed, same⟩ := List.mem_map.mp mem
    exact same ▸ plain e listed
  have fresh : ∀ r ∈ order, r.depth = 1 := fun r mem => by
    have ⟨e, _, same⟩ := List.mem_map.mp mem
    exact same ▸ rfl
  have labels : ((widen 16 order).map fun r => (r.id, r.label)) =
      ((widen 16 order).map RepoRow.key).map fun p =>
        (p.1, baseLabel (entries.map Prod.snd) p.2) := by
    rw [List.map_map]
    refine List.map_congr_left fun r mem => ?_
    have base := (widen_wide plain' fresh 16 r mem).label_base
    rw [comps] at base
    rw [base]
    rfl
  change ((widen 16 order).map fun r => (r.id, r.label)) = _
  rw [labels, widen_keys, List.map_map, List.map_map]
  rfl

theorem unionLabels_get (ids : (entries.map Prod.fst ++ stored.map Prod.fst).Nodup)
    (plain : ∀ e ∈ entries, Plain e.2) (id : Nat) (l : String) :
    (unionLabels entries stored)[id]? = some l ↔
      (id, l) ∈ settled (repoNames entries stored) := by
  have own := (List.nodup_append.mp ids).1
  have start : Names [] (∅, ∅) := ⟨by simp, by simp, by simp⟩
  have labels : Names ((baseNames entries).foldl settle [])
      ((baseNames entries).foldl nameRepo (∅, ∅)) :=
    foldl_nameRepo start (by simpa [baseNames_ids] using own)
  rw [repoNames, settled, List.foldl_append]
  refine foldl_storeLabel (fun id l => ?_) ?_ id l
  · rw [repoLabelMap, firsts_of_nodup own]
    simp only [widen_labels plain]
    exact labels.labels id l
  · rw [foldl_settle_ids, baseNames_ids]
    exact ids

end Labels

section Services
variable {labels : OrdMap Nat String} {r r' : Nat} {l l' : String}

def ServicesDistinct (labels : OrdMap Nat String) : Prop :=
  ∀ r r' l l', labels[r]? = some l → labels[r']? = some l' → r ≠ r' →
    l ≠ l' ∧ ∀ keying file file',
      serviceOf file r keying labels ≠ serviceOf file' r' keying labels

theorem two_le_size (here : labels[r]? = some l) (there : labels[r']? = some l')
    (apart : r ≠ r') : 2 ≤ labels.size := by
  have mem := Kit.OrdMap.mem_toList.mpr here
  have mem' := Kit.OrdMap.mem_toList.mpr there
  rw [← Std.ExtTreeMap.length_toList]
  by_contra few
  match held : labels.toList with
  | [] => simp [held] at mem
  | [only] =>
    rw [held, List.mem_singleton] at mem mem'
    exact apart (congrArg Prod.fst (mem.trans mem'.symm))
  | _ :: _ :: _ =>
    rw [held] at few
    simp at few

theorem prefixed_eq (here : labels[r]? = some l) (two : 2 ≤ labels.size) (key : String) :
    prefixed key r labels = l ++ "/" ++ key := by
  simp [prefixed, here, two]

theorem keys_apart (ne : l ≠ l') (above : ¬l.toList ++ ['/'] <+: l'.toList)
    (above' : ¬l'.toList ++ ['/'] <+: l.toList) (key key' : String) :
    l ++ "/" ++ key ≠ l' ++ "/" ++ key' := by
  intro same
  have lists := congrArg String.toList same
  simp only [String.toList_append, List.append_assoc] at lists
  have slash : "/".toList = ['/'] := by decide
  rw [slash, List.singleton_append, List.singleton_append] at lists
  have clash {a b u v : List Char} (eq : a ++ '/' :: u = b ++ '/' :: v) (short : a.length ≤ b.length) :
      a = b ∨ a ++ ['/'] <+: b := by
    have within : b <+: a ++ '/' :: u := eq ▸ List.prefix_append b _
    have dir : a ++ ['/'] <+: a ++ '/' :: u := ⟨u, by simp⟩
    rcases short.lt_or_eq with shorter | same
    · exact .inr (List.prefix_of_prefix_length_le dir within (by simp; omega))
    · exact .inl ((List.prefix_of_prefix_length_le (List.prefix_append a _) within
        same.le).eq_of_length same)
  rcases Nat.le_total l.toList.length l'.toList.length with short | short
  · rcases clash lists short with eq | dir
    · exact ne (String.toList_injective eq)
    · exact above dir
  · rcases clash lists.symm short with eq | dir
    · exact ne (String.toList_injective eq).symm
    · exact above' dir

theorem deepestRoot_self (roots : List String) {key : String} (mem : key ∈ roots) :
    deepestRoot roots key = some key := by
  refine deepestRoot_eq mem (by simp [encloses]) fun m _ here => ?_
  rcases encloses_iff.mp here with same | below
  · exact .inl same.symm
  · have longer := below.length_le
    rw [List.length_append, List.length_singleton] at longer
    exact .inr (bytes_lt ((List.prefix_append _ _).trans below) (by omega))

/-- Different repos hold different labels, none a directory above another. -/
def PairsApart (held : Nat → String → Prop) : Prop :=
  ∀ r r' l l', held r l → held r' l' → r ≠ r' →
    l ≠ l' ∧ ¬l.toList ++ ['/'] <+: l'.toList

theorem services_iff : ServicesDistinct labels ↔ PairsApart fun r l => labels[r]? = some l := by
  constructor
  · intro distinct r r' l l' here there apart
    refine ⟨(distinct r r' l l' here there apart).1, fun above => ?_⟩
    obtain ⟨rest, whole⟩ := above
    have two := two_le_size here there apart
    have longer : l' = l ++ "/" ++ String.ofList rest := by
      rw [← String.ofList_toList (s := l'), ← whole]
      simp [String.append_assoc]
    let key := String.ofList rest ++ "/a"
    refine (distinct r r' l l' here there apart).2 (.projectRoots [key, "a"]) key "a" ?_
    rw [serviceOf, serviceOf, deepestRoot_self _ (by simp), deepestRoot_self _ (by simp),
      Option.getD_some, Option.getD_some, prefixed_eq here two, prefixed_eq there two, longer]
    simp [key, String.append_assoc]
  · intro clear r r' l l' here there apart
    have two := two_le_size here there apart
    obtain ⟨ne, above⟩ := clear r r' l l' here there apart
    obtain ⟨_, above'⟩ := clear r' r l' l there here apart.symm
    refine ⟨ne, fun keying file file' => ?_⟩
    cases keying with
    | perRepo => simpa [serviceOf, here, there] using ne
    | topLevelDir =>
      rw [serviceOf, serviceOf, prefixed_eq here two, prefixed_eq there two]
      exact keys_apart ne above above' _ _
    | projectRoots roots =>
      rw [serviceOf, serviceOf, prefixed_eq here two, prefixed_eq there two]
      exact keys_apart ne above above' _ _

theorem apart_of_pairs {names : List (Nat × String)} (ids : (names.map Prod.fst).Nodup) :
    (PairsApart fun r l => (r, l) ∈ settled names) ↔ Apart names := by
  constructor
  · intro pairs
    have differ {i j : Nat} {e e' : Nat × String} (here : names[i]? = some e)
        (there : names[j]? = some e') (apart : i ≠ j) : e.1 ≠ e'.1 := fun same => by
      have inside := (List.getElem?_eq_some_iff.mp here).1
      refine apart ((List.getElem?_inj (by simpa using inside) ids).mp ?_)
      rw [List.getElem?_map, List.getElem?_map, here, there, Option.map_some, Option.map_some, same]
    refine ⟨@fun i j e e' here there before => ?_, @fun i j e e' here there => ?_⟩
    · exact (pairs _ _ _ _ (List.mem_of_getElem? (settled_getElem? there))
        (List.mem_of_getElem? (settled_getElem? here)) (differ there here (by omega))).1
    · by_cases same : i = j
      · subst same
        obtain rfl := Option.some.inj (here.symm.trans there)
        intro within
        have := within.length_le
        simp at this
      · exact (pairs _ _ _ _ (List.mem_of_getElem? (settled_getElem? here))
          (List.mem_of_getElem? (settled_getElem? there)) (differ here there same)).2
  · intro apart r r' l l' mem mem' ne
    have place {p : Nat × String} (mem : p ∈ settled names) :
        ∃ i e, names[i]? = some e ∧ p = (e.1, finalLabel names i e) := by
      have ⟨i, at'⟩ := List.mem_iff_getElem?.mp mem
      have inside := (List.getElem?_eq_some_iff.mp at').1
      rw [settled, foldl_settle_length, List.length_nil, Nat.zero_add] at inside
      have here := List.getElem?_eq_getElem inside
      rw [settled_getElem? here, Option.some.injEq] at at'
      exact ⟨i, _, here, at'.symm⟩
    have ⟨i, e, here, eq⟩ := place mem
    have ⟨j, e', there, eq'⟩ := place mem'
    obtain ⟨rfl, rfl⟩ := Prod.mk.inj eq
    obtain ⟨rfl, rfl⟩ := Prod.mk.inj eq'
    refine ⟨fun same => ?_, apart.above here there⟩
    rcases Nat.lt_trichotomy i j with before | same' | before
    · exact apart.ne there here before same
    · subst same'
      obtain rfl := Option.some.inj (here.symm.trans there)
      exact ne rfl
    · exact apart.ne here there before same.symm

theorem distinct_iff_clear (entries : List (Nat × List String)) (stored : List (Nat × String))
    (ids : (entries.map Prod.fst ++ stored.map Prod.fst).Nodup)
    (plain : ∀ e ∈ entries, Plain e.2) :
    ServicesDistinct (unionLabels entries stored) ↔ Clear (repoNames entries stored) := by
  have nodup : ((repoNames entries stored).map Prod.fst).Nodup := by
    rwa [repoNames, List.map_append, baseNames_ids]
  rw [services_iff, ← apart_iff, ← apart_of_pairs nodup]
  simp only [unionLabels_get ids plain]

/-- The repos on disk by the components of their paths. -/
def onDisk (paths : List (Nat × String)) : List (Nat × List String) :=
  paths.map fun e => (e.1, pathComponents e.2)

/-- Services of different repos stay apart exactly when their names are clear: when no number
repeats, none spells another label out, and no label is a directory above another. -/
theorem services_distinct_iff (paths stored : List (Nat × String))
    (ids : (paths.map Prod.fst ++ stored.map Prod.fst).Nodup) :
    ServicesDistinct (unionLabels (onDisk paths) stored) ↔
      Clear (repoNames (onDisk paths) stored) := by
  refine distinct_iff_clear _ stored ?_ fun e mem => ?_
  · rwa [onDisk, List.map_map]
  · have ⟨path, _, same⟩ := List.mem_map.mp mem
    exact same ▸ pathComponents_plain path.2

/-- An app, a service `web` under another `api`, and a third `web`. -/
def nestedNames : List (Nat × List String) :=
  [(1, ["p", "api"]), (2, ["q", "api", "web"]), (3, ["r", "web"])]

/-- Three copies of one path whose ids end in the same digits. -/
def sameDigits : List (Nat × List String) := [(1, ["app"]), (1001, ["app"]), (2001, ["app"])]

/-- A label that is a directory above another names one service for files of both repos, and a
third number repeats the second's. -/
theorem nestedNames_share :
    ((unionLabels nestedNames [])[1]? = some "api" ∧
      (unionLabels nestedNames [])[2]? = some "api/web" ∧
      serviceOf "web/src/a.rs" 1 (.projectRoots ["web/src", "src"]) (unionLabels nestedNames []) =
        serviceOf "src/a.rs" 2 (.projectRoots ["web/src", "src"]) (unionLabels nestedNames []) ∧
      ¬ServicesDistinct (unionLabels nestedNames [])) ∧
    (unionLabels sameDigits [])[1001]? = (unionLabels sameDigits [])[2001]? := by
  have one : (unionLabels nestedNames [])[1]? = some "api" := by decide +kernel
  have two : (unionLabels nestedNames [])[2]? = some "api/web" := by decide +kernel
  have clash : serviceOf "web/src/a.rs" 1 (.projectRoots ["web/src", "src"])
      (unionLabels nestedNames []) =
        serviceOf "src/a.rs" 2 (.projectRoots ["web/src", "src"]) (unionLabels nestedNames []) := by
    decide +kernel
  refine ⟨⟨one, two, clash, fun distinct => ?_⟩, by decide +kernel⟩
  exact (distinct 1 2 _ _ one two (by decide)).2 _ _ _ clash

/-- Two repos named alike and one that keeps its stored label. -/
theorem services_distinct_iff_stored :
    ServicesDistinct (unionLabels (onDisk [(7, "x/api"), (9, "y/api")]) [(11, "old")]) ↔
      Clear (repoNames (onDisk [(7, "x/api"), (9, "y/api")]) [(11, "old")]) :=
  services_distinct_iff _ _ (by decide)

end Services

end Glia.Engine.Arch
