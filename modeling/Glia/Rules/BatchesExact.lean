import Glia.Rules.Batches

/-! What the searches over a sorted batch find, and what each way of building a batch puts
in it. -/
namespace Glia.Rules.Storage

namespace Metas

def Whole : Metas → Prop
  | .uniform _ _ => True
  | .per heights rules => heights.length = rules.length

/-- The rows' provenances in order, whichever representation holds them. -/
def values : Metas → List RowMeta
  | .uniform n p => List.replicate n p
  | .per heights rules => List.zipWith RowMeta.mk heights rules

theorem push_uniform (n : Nat) (q p : RowMeta) : (uniform n q).push p =
    if n = 0 ∨ q = p then .uniform (n + 1) p
    else .per (List.replicate n q.height ++ [p.height]) (List.replicate n q.rule ++ [p.rule]) := rfl

theorem push_per (heights rules : List Nat) (p : RowMeta) :
    (per heights rules).push p = .per (heights ++ [p.height]) (rules ++ [p.rule]) := rfl

theorem values_length {m : Metas} (h : m.Whole) : m.values.length = m.len := by
  cases m with
  | uniform n p => simp [values, len]
  | per heights rules =>
    have same : heights.length = rules.length := h
    simp [values, len, same]

theorem push_whole {m : Metas} (h : m.Whole) (p : RowMeta) : (m.push p).Whole := by
  cases m with
  | uniform n q =>
    rw [push_uniform]
    split
    · trivial
    · simp [Whole]
  | per heights rules =>
    have same : heights.length = rules.length := h
    simp [push_per, Whole, same]

theorem push_values {m : Metas} (h : m.Whole) (p : RowMeta) :
    (m.push p).values = m.values ++ [p] := by
  cases m with
  | uniform n q =>
    rw [push_uniform]
    split
    · rename_i same
      rcases same with rfl | rfl
      · rfl
      · rw [values, values, List.replicate_succ']
    · simp [values, List.zipWith_append]
  | per heights rules =>
    have same : heights.length = rules.length := h
    simp [push_per, values, List.zipWith_append, same]

theorem values_get {m : Metas} (h : m.Whole) {i : Nat} (lt : i < m.len) :
    m.values[i]? = some (m.get i) := by
  cases m with
  | uniform n p =>
    have lt : i < n := lt
    simp [values, get, lt]
  | per heights rules =>
    have same : heights.length = rules.length := h
    have lt : i < heights.length := lt
    have lt' : i < rules.length := same ▸ lt
    simp [values, get, lt, lt']

end Metas

namespace Batch

structure Whole (arity : Nat) (b : Batch) : Prop where
  metas : b.metas.Whole
  rows : b.rows.length = b.len
  ordinals : ∀ o, b.ordinals = some o → o.length = b.len
  wide : ∀ r ∈ b.rows, r.length = arity

/-- The ordinals in order, none on a batch without the column. -/
def ordinalList (b : Batch) : List Nat := b.ordinals.getD (List.replicate b.len noOrdinal)

def items (b : Batch) : List (Handles × RowMeta × Nat) :=
  b.rows.zip (b.metas.values.zip b.ordinalList)

variable {arity : Nat} {b : Batch}

theorem whole_empty (arity : Nat) : Whole arity empty := ⟨trivial, rfl, by rintro o ⟨⟩, by simp [empty]⟩

theorem Whole.values_length (h : b.Whole arity) : b.metas.values.length = b.len :=
  Metas.values_length h.metas

theorem Whole.ordinalList_length (h : b.Whole arity) : b.ordinalList.length = b.len := by
  unfold ordinalList
  cases eq : b.ordinals with
  | none => simp
  | some o => exact h.ordinals o eq

theorem Whole.items_length (h : b.Whole arity) : b.items.length = b.len := by
  rw [items, List.length_zip, List.length_zip, h.rows, h.values_length,
    h.ordinalList_length, min_self, min_self]

theorem Whole.items_rows (h : b.Whole arity) : b.items.map Prod.fst = b.rows := by
  rw [items, List.map_fst_zip]
  rw [List.length_zip, h.rows, h.values_length, h.ordinalList_length]
  exact le_min le_rfl le_rfl

theorem Whole.item (h : b.Whole arity) {i : Nat} (lt : i < b.len) :
    b.items[i]? = some (b.row i, b.prov i, b.ordinal i) := by
  have row : b.rows[i]? = some (b.row i) := by
    rw [row, List.getD_eq_getElem?_getD, List.getElem?_eq_getElem (h.rows ▸ lt)]
    rfl
  have ord : b.ordinalList[i]? = some (b.ordinal i) := by
    unfold ordinalList ordinal
    cases eq : b.ordinals with
    | none => simp [lt]
    | some o =>
      have lt' : i < o.length := h.ordinals o eq ▸ lt
      simp [lt']
  have prov : b.metas.values[i]? = some (b.prov i) := Metas.values_get h.metas lt
  rw [items, List.getElem?_zip_eq_some]
  refine ⟨row, ?_⟩
  rw [List.getElem?_zip_eq_some]
  exact ⟨prov, ord⟩

theorem Whole.row_mem (h : b.Whole arity) {i : Nat} (lt : i < b.len) : b.row i ∈ b.rows := by
  rw [row, List.getD_eq_getElem?_getD, List.getElem?_eq_getElem (h.rows ▸ lt)]
  exact List.getElem_mem _

theorem Whole.pushFrom {src : Batch} (h : b.Whole arity) (hs : src.Whole arity) {i : Nat}
    (lt : i < src.len) : (b.pushFrom src i).Whole arity := by
  have more : (b.pushFrom src i).len = b.len + 1 := by
    have := Metas.values_length (Metas.push_whole h.metas (src.prov i))
    rw [Metas.push_values h.metas, List.length_append, Metas.values_length h.metas] at this
    exact this.symm
  refine ⟨Metas.push_whole h.metas _, ?_, ?_, ?_⟩
  · rw [more, Batch.pushFrom, List.length_append, h.rows]
    rfl
  · intro o eq
    obtain ⟨o', eq', rfl⟩ := Option.map_eq_some_iff.mp eq
    rw [more, List.length_append, h.ordinals o' eq']
    rfl
  · intro r mem
    rcases List.mem_append.mp mem with mem | mem
    · exact h.wide r mem
    · rw [List.mem_singleton.mp mem]
      exact hs.wide _ (hs.row_mem lt)

theorem Whole.items_pushFrom {src : Batch} (h : b.Whole arity) (hs : src.Whole arity) {i : Nat}
    (lt : i < src.len) (kept : b.ordinals = none → src.ordinals = none) :
    (b.pushFrom src i).items = b.items ++ [(src.row i, src.prov i, src.ordinal i)] := by
  have more : (b.pushFrom src i).len = b.len + 1 := by
    rw [← (h.pushFrom hs lt).rows, Batch.pushFrom, List.length_append, h.rows]
    rfl
  have ords : (b.pushFrom src i).ordinalList = b.ordinalList ++ [src.ordinal i] := by
    unfold ordinalList
    rw [more]
    cases eq : b.ordinals with
    | none =>
      have none : src.ordinal i = noOrdinal := by
        rw [ordinal, kept eq]
      simp [Batch.pushFrom, eq, none, List.replicate_succ']
    | some o => simp [Batch.pushFrom, eq]
  rw [items, ords]
  have metas : (b.pushFrom src i).metas.values = b.metas.values ++ [src.prov i] :=
    Metas.push_values h.metas _
  have rows : (b.pushFrom src i).rows = b.rows ++ [src.row i] := rfl
  rw [metas, rows, List.zip_append, List.zip_append]
  · rfl
  · rw [List.length_zip, h.values_length, h.ordinalList_length, h.rows, min_self]
  · rw [h.values_length, h.ordinalList_length]

theorem Whole.items_eq (h : b.Whole arity) :
    b.items = (List.range b.len).map fun i => (b.row i, b.prov i, b.ordinal i) := by
  apply List.ext_getElem?
  intro i
  by_cases lt : i < b.len
  · rw [h.item lt, List.getElem?_map, List.getElem?_range lt]
    rfl
  · rw [List.getElem?_eq_none (by rw [h.items_length]; omega), List.getElem?_map,
      List.getElem?_eq_none (by rw [List.length_range]; omega)]
    rfl

section Collect

theorem foldl_push {α : Type} (f : α → RowMeta) (l : List α) {m : Metas} (h : m.Whole) :
    (l.foldl (fun m a => m.push (f a)) m).Whole ∧
      (l.foldl (fun m a => m.push (f a)) m).values = m.values ++ l.map f := by
  induction l generalizing m with
  | nil => exact ⟨h, (List.append_nil _).symm⟩
  | cons a l ih =>
    obtain ⟨whole, values⟩ := ih (Metas.push_whole h (f a))
    refine ⟨whole, ?_⟩
    rw [List.foldl_cons, values, Metas.push_values h, List.map_cons, List.append_assoc]
    rfl

theorem zip_maps {α β γ δ : Type} (f : α → β) (g : α → γ) (k : α → δ) (l : List α) :
    (l.map f).zip ((l.map g).zip (l.map k)) = l.map fun a => (f a, g a, k a) := by
  induction l with
  | nil => rfl
  | cons a l ih => simp [ih]

variable {rows : List (Handles × RowMeta × Nat)}

theorem collect_len : (collect rows).len = rows.length := by
  obtain ⟨whole, values⟩ := foldl_push (fun r : Handles × RowMeta × Nat => r.2.1) rows
    (m := .empty) trivial
  have length := Metas.values_length whole
  rw [values, List.length_append, List.length_map] at length
  exact length.symm.trans (Nat.zero_add _)

theorem collect_whole (wide : ∀ r ∈ rows, r.1.length = arity) : (collect rows).Whole arity where
  metas := (foldl_push (fun r : Handles × RowMeta × Nat => r.2.1) rows (m := .empty) trivial).1
  rows := by
    rw [collect_len]
    exact List.length_map _
  ordinals := by
    intro o eq
    rw [collect_len]
    unfold collect at eq
    dsimp only at eq
    split at eq
    · cases eq
      exact List.length_map _
    · cases eq
  wide := by
    intro r mem
    obtain ⟨x, there, rfl⟩ := List.mem_map.mp mem
    exact wide x there

theorem collect_items : (collect rows).items = rows := by
  obtain ⟨_, values⟩ := foldl_push (fun r : Handles × RowMeta × Nat => r.2.1) rows
    (m := .empty) trivial
  have ords : (collect rows).ordinalList = rows.map fun r => r.2.2 := by
    unfold ordinalList
    rw [collect_len]
    unfold collect
    dsimp only
    split
    · rfl
    · rename_i none
      rw [List.any_eq_true, not_exists] at none
      have all : ∀ r ∈ rows, r.2.2 = noOrdinal := by
        intro r mem
        by_contra ne
        exact none r ⟨mem, decide_eq_true ne⟩
      exact (List.eq_replicate_iff.mpr ⟨List.length_map _, by
        intro o mem
        obtain ⟨r, there, rfl⟩ := List.mem_map.mp mem
        exact all r there⟩).symm
  have metas : (collect rows).metas.values = rows.map fun r => r.2.1 :=
    values.trans (List.nil_append _)
  have list : (collect rows).rows = rows.map fun r => r.1 := rfl
  rw [items, ords, metas, list, zip_maps]
  exact List.map_id' rows

end Collect

section Merge

/-- The order the merge takes two rows in. -/
def rowBefore (x y : Handles × RowMeta × Nat) : Bool := x.1 < y.1

theorem drop_items (h : b.Whole arity) {i : Nat} (lt : i < b.len) :
    b.items.drop i = (b.row i, b.prov i, b.ordinal i) :: b.items.drop (i + 1) := by
  have lt' : i < b.items.length := h.items_length.symm ▸ lt
  have at' := h.item lt
  rw [List.getElem?_eq_getElem lt', Option.some.injEq] at at'
  rw [List.drop_eq_getElem_cons lt', at']

theorem pushFrom_ordinals {out src : Batch} {i : Nat}
    (absent : (out.pushFrom src i).ordinals = none) : out.ordinals = none :=
  Option.map_eq_none_iff.mp absent

/-- The merge's loop appends the rest of both batches, merged. -/
theorem mergeInto_spec {a : Batch} (ha : a.Whole arity) (hb : b.Whole arity) {i j : Nat}
    {out : Batch} (ho : out.Whole arity)
    (kept : out.ordinals = none → a.ordinals = none ∧ b.ordinals = none) :
    (mergeInto a b i j out).Whole arity ∧
      (mergeInto a b i j out).items =
        out.items ++ List.merge (a.items.drop i) (b.items.drop j) rowBefore := by
  fun_induction mergeInto a b i j out with
  | case1 i j out more fromA ih =>
    have lt : i < a.len := by
      rcases fromA with past | ⟨lt, _⟩
      · omega
      · exact lt
    obtain ⟨whole, items⟩ := ih (ho.pushFrom ha lt) fun none => kept (pushFrom_ordinals none)
    refine ⟨whole, ?_⟩
    rw [items, ho.items_pushFrom ha lt fun none => (kept none).1, drop_items ha lt,
      List.append_assoc]
    congr 1
    by_cases past : b.len ≤ j
    · have empty : b.items.drop j = [] :=
        List.drop_eq_nil_of_le (by rw [hb.items_length]; exact past)
      rw [empty]
      simp
    · rw [drop_items hb (by omega), List.cons_merge_cons_pos]
      · rfl
      · exact decide_eq_true (fromA.resolve_left past).2
  | case2 i j out more fromB ih =>
    rw [not_or, not_le] at fromB
    have lt : j < b.len := fromB.1
    obtain ⟨whole, items⟩ := ih (ho.pushFrom hb lt) fun none => kept (pushFrom_ordinals none)
    refine ⟨whole, ?_⟩
    rw [items, ho.items_pushFrom hb lt fun none => (kept none).2, drop_items hb lt,
      List.append_assoc]
    congr 1
    by_cases inside : i < a.len
    · rw [drop_items ha inside, List.cons_merge_cons_neg]
      · rfl
      · intro before
        exact fromB.2 ⟨inside, of_decide_eq_true before⟩
    · have empty : a.items.drop i = [] :=
        List.drop_eq_nil_of_le (by rw [ha.items_length]; omega)
      rw [empty]
      simp
  | case3 i j out done =>
    have emptyA : a.items.drop i = [] := List.drop_eq_nil_of_le (by rw [ha.items_length]; omega)
    have emptyB : b.items.drop j = [] := List.drop_eq_nil_of_le (by rw [hb.items_length]; omega)
    rw [emptyA, emptyB]
    exact ⟨ho, by simp⟩

theorem Whole.items_nil (h : b.Whole arity) (none : b.len = 0) : b.items = [] :=
  List.eq_nil_of_length_eq_zero (h.items_length.trans none)

theorem merge_spec {a : Batch} (ha : a.Whole arity) (hb : b.Whole arity) :
    (a.merge b).Whole arity ∧ (a.merge b).items = List.merge a.items b.items rowBefore := by
  unfold merge
  split
  · rename_i none
    rw [ha.items_nil none, List.nil_merge]
    exact ⟨hb, rfl⟩
  split
  · rename_i none
    rw [hb.items_nil none]
    exact ⟨ha, by simp⟩
  · have metas : (mergeStart a b).metas.Whole ∧ (mergeStart a b).metas.len = 0 := by
      unfold mergeStart
      dsimp only
      split
      · exact ⟨trivial, rfl⟩
      · exact ⟨rfl, rfl⟩
    have start : (mergeStart a b).Whole arity := by
      refine ⟨metas.1, metas.2.symm, fun o eq => ?_, fun r mem => nomatch mem⟩
      unfold mergeStart at eq
      dsimp only at eq
      split at eq
      · cases eq
        exact metas.2.symm
      · cases eq
    have kept : (mergeStart a b).ordinals = none → a.ordinals = none ∧ b.ordinals = none := by
      intro absent
      unfold mergeStart at absent
      dsimp only at absent
      split at absent
      · cases absent
      · rename_i neither
        rw [not_or, Option.not_isSome_iff_eq_none, Option.not_isSome_iff_eq_none] at neither
        exact neither
    obtain ⟨whole, items⟩ := mergeInto_spec (i := 0) (j := 0) ha hb start kept
    refine ⟨whole, items.trans ?_⟩
    rw [start.items_nil metas.2, List.nil_append, List.drop_zero, List.drop_zero]

theorem merge_ascending {xs ys : List (Handles × RowMeta × Nat)}
    (hx : xs.Pairwise fun x y => x.1 ≤ y.1) (hy : ys.Pairwise fun x y => x.1 ≤ y.1) :
    (List.merge xs ys rowBefore).Pairwise fun x y => x.1 ≤ y.1 := by
  induction xs generalizing ys with
  | nil =>
    rw [List.nil_merge]
    exact hy
  | cons x xs ihx =>
    induction ys with
    | nil =>
      rw [List.merge_right]
      exact hx
    | cons y ys ihy =>
      rw [List.pairwise_cons] at hx hy
      by_cases before : rowBefore x y
      · rw [List.cons_merge_cons_pos _ _ _ before]
        have lt : x.1 < y.1 := of_decide_eq_true before
        refine List.pairwise_cons.mpr ⟨fun z mem => ?_, ihx hx.2 (List.pairwise_cons.mpr hy)⟩
        rcases List.mem_merge.mp mem with mem | mem
        · exact hx.1 z mem
        · rcases List.mem_cons.mp mem with rfl | mem
          · exact lt.le
          · exact lt.le.trans (hy.1 z mem)
      · rw [List.cons_merge_cons_neg _ _ _ before]
        have le : y.1 ≤ x.1 := not_lt.mp fun lt => before (decide_eq_true lt)
        refine List.pairwise_cons.mpr ⟨fun z mem => ?_, ihy hy.2⟩
        rcases List.mem_merge.mp mem with mem | mem
        · rcases List.mem_cons.mp mem with rfl | mem
          · exact le
          · exact le.trans (hx.1 z mem)
        · exact hy.1 z mem

end Merge

structure Ordered (arity : Nat) (b : Batch) : Prop extends b.Whole arity where
  ascending : b.rows.Pairwise (· ≤ ·)

theorem ordered_empty (arity : Nat) : Ordered arity empty := ⟨whole_empty arity, List.Pairwise.nil⟩

theorem collect_ordered {rows : List (Handles × RowMeta × Nat)}
    (wide : ∀ r ∈ rows, r.1.length = arity) (ascending : rows.Pairwise fun x y => x.1 ≤ y.1) :
    Ordered arity (collect rows) :=
  ⟨collect_whole wide, List.pairwise_map.mpr ascending⟩

theorem Ordered.items_ascending (h : Ordered arity b) : b.items.Pairwise fun x y => x.1 ≤ y.1 := by
  have rows := h.ascending
  rw [← h.items_rows] at rows
  exact List.pairwise_map.mp rows

theorem Ordered.merge {a : Batch} (ha : Ordered arity a) (hb : Ordered arity b) :
    Ordered arity (a.merge b) := by
  obtain ⟨whole, items⟩ := merge_spec ha.toWhole hb.toWhole
  refine ⟨whole, ?_⟩
  rw [← whole.items_rows, items]
  exact List.pairwise_map.mpr (merge_ascending ha.items_ascending hb.items_ascending)

theorem Ordered.merge_perm {a : Batch} (ha : Ordered arity a) (hb : Ordered arity b) :
    (a.merge b).items.Perm (a.items ++ b.items) := by
  rw [(merge_spec ha.toWhole hb.toWhole).2]
  exact List.merge_perm_append rowBefore

theorem Ordered.merge_len {a : Batch} (ha : Ordered arity a) (hb : Ordered arity b) :
    (a.merge b).len = a.len + b.len := by
  have := (ha.merge_perm hb).length_eq
  rw [(ha.merge hb).items_length, List.length_append, ha.items_length, hb.items_length] at this
  exact this

section Permute

variable {perm : List Nat}

def permuteItem (perm : List Nat) (x : Handles × RowMeta × Nat) : Handles × RowMeta × Nat :=
  (permute perm x.1, x.2.1, noOrdinal)

def permutedOrder (b : Batch) (perm : List Nat) : List Nat :=
  (List.range b.len).insertionSort fun i j => permute perm (b.row i) ≤ permute perm (b.row j)

theorem permutedOrder_perm (b : Batch) (perm : List Nat) :
    (b.permutedOrder perm).Perm (List.range b.len) := List.perm_insertionSort _ _

theorem permutedOrder_length (b : Batch) (perm : List Nat) :
    (b.permutedOrder perm).length = b.len :=
  (b.permutedOrder_perm perm).length_eq.trans List.length_range

theorem permuted_metas (b : Batch) (perm : List Nat) : (b.permuted perm).metas.Whole ∧
    (b.permuted perm).metas.values = (b.permutedOrder perm).map b.prov := by
  cases eq : b.metas with
  | uniform n p =>
    have metas : (b.permuted perm).metas = .uniform b.len p := by
      simp [permuted, eq, Metas.shared]
    rw [metas]
    refine ⟨trivial, ?_⟩
    have same : b.prov = fun _ => p := by
      funext i
      rw [prov, eq]
      rfl
    rw [same, List.map_const', permutedOrder_length]
    rfl
  | per heights rules =>
    have metas : (b.permuted perm).metas =
        (b.permutedOrder perm).foldl (fun m i => m.push (b.prov i)) (.per [] []) := by
      simp only [permuted, eq, Metas.shared]
      rfl
    rw [metas]
    exact foldl_push b.prov (b.permutedOrder perm) (m := .per [] []) rfl

theorem permuted_len (b : Batch) (perm : List Nat) : (b.permuted perm).len = b.len := by
  obtain ⟨whole, values⟩ := b.permuted_metas perm
  have length := Metas.values_length whole
  rw [values, List.length_map, permutedOrder_length] at length
  exact length.symm

theorem permuted_items (b : Batch) (perm : List Nat) : (b.permuted perm).items =
    (b.permutedOrder perm).map fun i => (permute perm (b.row i), b.prov i, noOrdinal) := by
  have rows : (b.permuted perm).rows =
      (b.permutedOrder perm).map fun i => permute perm (b.row i) := rfl
  have ords : (b.permuted perm).ordinalList = (b.permutedOrder perm).map fun _ => noOrdinal := by
    have absent : (b.permuted perm).ordinals = none := rfl
    rw [ordinalList, absent, List.map_const', permutedOrder_length, permuted_len]
    rfl
  rw [items, rows, ords, (b.permuted_metas perm).2, zip_maps]

theorem permuted_ordered (b : Batch) (perm : List Nat) :
    Ordered perm.length (b.permuted perm) where
  metas := (b.permuted_metas perm).1
  rows := by
    rw [permuted_len]
    exact (List.length_map _).trans (b.permutedOrder_length perm)
  ordinals := by rintro o ⟨⟩
  wide := by
    intro r mem
    obtain ⟨i, _, rfl⟩ := List.mem_map.mp mem
    exact List.length_map _
  ascending := by
    have : IsTrans Nat fun i j => permute perm (b.row i) ≤ permute perm (b.row j) :=
      ⟨fun _ _ _ h h' => le_trans h h'⟩
    have : Std.Total fun i j => permute perm (b.row i) ≤ permute perm (b.row j) :=
      ⟨fun _ _ => le_total _ _⟩
    exact List.pairwise_map.mpr (List.pairwise_insertionSort
      (fun i j => permute perm (b.row i) ≤ permute perm (b.row j)) (List.range b.len))

theorem permuted_perm (h : b.Whole arity) (perm : List Nat) :
    (b.permuted perm).items.Perm (b.items.map (permuteItem perm)) := by
  rw [permuted_items, h.items_eq, List.map_map]
  exact (b.permutedOrder_perm perm).map _

end Permute

section Search

theorem lt_of_take_lt (n : Nat) {x y : Handles} (lt : x.take n < y.take n) : x < y := by
  induction n generalizing x y with
  | zero => exact absurd lt (lt_irrefl _)
  | succ n ih =>
    match x, y with
    | [], [] => exact lt
    | [], b :: ys => exact List.Lex.nil
    | a :: xs, [] => exact absurd lt (by intro h; cases h)
    | a :: xs, b :: ys =>
      rw [List.take_succ_cons, List.take_succ_cons] at lt
      cases lt with
      | rel lt => exact List.Lex.rel lt
      | cons lt => exact List.Lex.cons (ih lt)

theorem take_le_take (n : Nat) {x y : Handles} (le : x ≤ y) : x.take n ≤ y.take n := by
  by_contra lt
  exact absurd (lt_of_take_lt n (not_le.mp lt)) (not_lt.mpr le)

variable {key : Handles}

theorem Ordered.row_le (h : Ordered arity b) {i j : Nat} (le : i ≤ j) (lt : j < b.len) :
    b.row i ≤ b.row j := by
  rcases le.eq_or_lt with rfl | before
  · exact le_rfl
  · have ltJ : j < b.rows.length := h.rows ▸ lt
    have ltI : i < b.rows.length := before.trans ltJ
    have sorted := List.pairwise_iff_getElem.mp h.ascending i j ltI ltJ before
    have rowAt : ∀ k (inside : k < b.rows.length), b.row k = b.rows[k] := by
      intro k inside
      rw [row, List.getD_eq_getElem?_getD, List.getElem?_eq_getElem inside]
      rfl
    rw [rowAt i ltI, rowAt j ltJ]
    exact sorted

theorem below_iff (b : Batch) (key : Handles) (i : Nat) :
    b.below key i = true ↔ (b.row i).take key.length < key := decide_eq_true_iff

theorem Ordered.below_mono (h : Ordered arity b) {i j : Nat} (le : i ≤ j) (lt : j < b.len)
    (under : b.below key j = true) : b.below key i = true := by
  rw [below_iff] at under ⊢
  exact (take_le_take key.length (h.row_le le lt)).trans_lt under

structure IsBound (b : Batch) (key : Handles) (p : Nat) : Prop where
  le : p ≤ b.len
  before : ∀ i < p, b.below key i = true
  after : ∀ i, p ≤ i → i < b.len → b.below key i = false

theorem Ordered.search_bound (h : Ordered arity b) {lo hi : Nat} (le : lo ≤ hi) (last : hi ≤ b.len)
    (before : ∀ i < lo, b.below key i = true)
    (after : ∀ i, hi ≤ i → i < b.len → b.below key i = false) :
    IsBound b key (b.search key lo hi) := by
  fun_induction search b key lo hi with
  | case1 lo hi lt mid under ih =>
    refine ih (by omega) last (fun i before' => ?_) after
    exact h.below_mono (by omega) (by omega) under
  | case2 lo hi lt mid beyond ih =>
    refine ih (by omega) (by omega) before fun i le' inside => ?_
    by_contra under
    exact beyond (h.below_mono le' inside (by simpa using under))
  | case3 lo hi done =>
    have eq : lo = hi := by omega
    exact ⟨eq ▸ last, before, fun i le' inside => after i (eq ▸ le') inside⟩

theorem Ordered.lowerBound_bound (h : Ordered arity b) (key : Handles) :
    IsBound b key (b.lowerBound key) :=
  h.search_bound (Nat.zero_le _) le_rfl (fun i lt => absurd lt (Nat.not_lt_zero i))
    fun _ le lt => absurd lt (not_lt.mpr le)

theorem Ordered.gallopSteps_spec (h : Ordered arity b) {lo k : Nat} (inside : lo < b.len)
    (under : b.below key lo = true) :
    let found := b.gallopSteps key lo k
    found.1 < found.2 ∧ found.2 ≤ b.len ∧ b.below key found.1 = true ∧
      ∀ i, found.2 ≤ i → i < b.len → b.below key i = false := by
  fun_induction gallopSteps b key lo k with
  | case1 lo k probe past =>
    exact ⟨inside, le_rfl, under, fun i le lt => absurd lt (not_lt.mpr le)⟩
  | case2 lo k probe notPast beyond =>
    have positive := Nat.two_pow_pos k
    refine ⟨by omega, by omega, under, fun i le lt => ?_⟩
    by_contra under'
    have := h.below_mono le lt (by simpa using under')
    rw [this] at beyond
    cases beyond
  | case3 lo k probe notPast notOver ih =>
    exact ih (by omega) (by simpa using notOver)

theorem Ordered.gallop_bound (h : Ordered arity b) {start : Nat} (le : start ≤ b.len)
    (before : ∀ i < start, b.below key i = true) : IsBound b key (b.gallop key start) := by
  unfold gallop
  split
  · rename_i stop
    refine ⟨le, before, fun i le' lt => ?_⟩
    rcases stop with past | beyond
    · omega
    · by_contra under
      have := h.below_mono le' lt (by simpa using under)
      rw [this] at beyond
      cases beyond
  · rename_i go
    rw [not_or, not_le] at go
    obtain ⟨inside, under⟩ := go
    obtain ⟨lt, last, under', after⟩ := h.gallopSteps_spec (k := 0) inside (by simpa using under)
    refine h.search_bound lt last (fun i before' => ?_) after
    exact h.below_mono (by omega) (by omega) under'

theorem Ordered.found_iff (h : Ordered arity b) (wide : key.length = arity) {p : Nat}
    (bound : IsBound b key p) : (p < b.len ∧ b.row p = key) ↔ key ∈ b.rows := by
  have whole : ∀ i < b.len, (b.row i).take key.length = b.row i := by
    intro i lt
    rw [List.take_of_length_le]
    rw [h.wide _ (h.row_mem lt), wide]
  constructor
  · rintro ⟨lt, rfl⟩
    exact h.row_mem lt
  · intro mem
    obtain ⟨i, lt, eq⟩ := List.getElem_of_mem mem
    have lt' : i < b.len := h.rows ▸ lt
    have rowAt : b.row i = key := by
      rw [row, List.getD_eq_getElem?_getD, List.getElem?_eq_getElem lt]
      exact eq
    have notUnder : ¬ b.below key i = true := by
      rw [below_iff, whole i lt', rowAt]
      exact lt_irrefl _
    have le : p ≤ i := not_lt.mp fun before => notUnder (bound.before i before)
    have inside : p < b.len := le.trans_lt lt'
    refine ⟨inside, le_antisymm ?_ ?_⟩
    · rw [← rowAt]
      exact h.row_le le lt'
    · have beyond := bound.after p le_rfl inside
      have notLt : ¬ b.row p < key := by
        intro under
        have := (below_iff b key p).mpr ((whole p inside).symm ▸ under)
        rw [this] at beyond
        cases beyond
      exact not_lt.mp notLt

end Search

end Batch

end Glia.Rules.Storage
