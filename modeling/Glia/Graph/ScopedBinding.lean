import Glia.Graph.CellWrites

/-! When a binding scoped to one repo ignores the nodes of the others. -/
namespace Glia.Graph

section Carries
variable (read : NodeReader)

def carriesQname (qname : String) (kind : Option Nat) (e : RepoGraph × NodeId) : Bool :=
  (named e).any fun x => x.1 = qname ∧ kind.all fun k => k = x.2.1

/-- A node of the hint's kind, file and local name. -/
def carriesKey (h : Identity) (e : RepoGraph × NodeId) : Bool :=
  (identified read e).any fun i => i.1.key = h.key

def carriesBody (h : Identity) (e : RepoGraph × NodeId) : Bool :=
  (identified read e).any fun i => h.body ≠ 0 ∧ i.1.kind = h.kind ∧ i.1.body = h.body

def pick (p : RepoGraph × NodeId → Bool) (nodes : List (RepoGraph × NodeId)) : List NodeId :=
  (nodes.filter p).map Prod.snd

variable {read}

theorem pick_read {β : Type} {f : RepoGraph × NodeId → Option (β × NodeId)}
    (own : ∀ e x, f e = some x → x.2 = e.2) (p : β → Bool) (nodes : List (RepoGraph × NodeId)) :
    ((nodes.filterMap f).filter fun x => p x.1).map Prod.snd =
      pick (fun e => (f e).any fun x => p x.1) nodes := by
  unfold pick
  induction nodes with
  | nil => rfl
  | cons e rest ih =>
    cases eq : f e with
    | none => rw [List.filterMap_cons_none eq, ih, List.filter_cons_of_neg (by simp [eq])]
    | some x =>
      rw [List.filterMap_cons_some eq]
      by_cases kept : p x.1 = true
      · rw [List.filter_cons_of_pos (by simpa using kept), List.map_cons, ih,
          List.filter_cons_of_pos (by simpa [eq] using kept), List.map_cons, own e x eq]
      · rw [List.filter_cons_of_neg (by simpa using kept), ih,
          List.filter_cons_of_neg (by simpa [eq] using kept)]

theorem identified_id (e : RepoGraph × NodeId) (x : Identity × NodeId)
    (eq : identified read e = some x) : x.2 = e.2 := by
  obtain ⟨d, _, rfl⟩ := Option.map_eq_some_iff.mp eq
  rfl

theorem sortIds_nil : sortIds [] = [] := rfl

theorem mem_sortIds {id : NodeId} {ids : List NodeId} : id ∈ sortIds ids ↔ id ∈ ids := by
  unfold sortIds
  rw [List.mem_dedup, List.mem_insertionSort]

theorem getElem?_pushAll {κ β γ : Type} [LinearOrder κ] (items : List (κ × β))
    {f : List β → List γ} (empty : f [] = []) (k : κ) :
    (((pushAll items).map fun _ => f)[k]?).getD [] =
      f ((items.filter fun e => e.1 = k).map Prod.snd) := by
  rw [← Kit.getElem?_gather_push items k]
  change _ = f (((pushAll items)[k]?).getD [])
  rw [Std.ExtTreeMap.getElem?_map]
  cases (pushAll items)[k]? with
  | none => exact empty.symm
  | some l => rfl

theorem keyHits_eq (m : MergedGraph) (h : Identity) :
    (IdentityIndex.build read m).keyHits h =
      sortIds (pick (carriesKey read h) (firstInstances m.graphs)) := by
  unfold IdentityIndex.keyHits IdentityIndex.build
  dsimp only
  rw [getElem?_pushAll _ sortIds_nil, List.filter_map, List.map_map]
  exact congrArg sortIds (pick_read identified_id (fun i => decide (i.key = h.key)) _)

theorem bodyHits_eq (m : MergedGraph) (h : Identity) :
    (IdentityIndex.build read m).bodyHits h =
      sortIds (pick (carriesBody read h) (firstInstances m.graphs)) := by
  unfold IdentityIndex.bodyHits IdentityIndex.build
  dsimp only
  have ids := pick_read identified_id
    (fun i => decide (h.body ≠ 0 ∧ i.kind = h.kind ∧ i.body = h.body)) (firstInstances m.graphs)
    (f := identified read)
  change _ = pick (carriesBody read h) _ at ids
  split
  · rename_i bare
    rw [← ids]
    simp [bare, sortIds_nil]
  · rename_i hashed
    rw [getElem?_pushAll _ sortIds_nil, List.filter_map, List.map_map, List.filter_filter, ← ids]
    congr 2
    apply List.filter_congr
    intro x _
    have body : (x.1.body.toNat = h.body.toNat) = (x.1.body = h.body) :=
      propext UInt64.toNat_inj
    simp only [Function.comp, EmbeddingLike.apply_eq_iff_eq, Prod.mk.injEq, body, ne_eq]
    by_cases same : x.1.body = h.body <;> simp [same, hashed]

theorem named_id (e : RepoGraph × NodeId) (x : String × Nat × NodeId) (eq : named e = some x) :
    x.2.2 = e.2 := by
  unfold named at eq
  obtain ⟨qname, _, eq⟩ := Option.bind_eq_some_iff.mp eq
  obtain ⟨kind, _, eq⟩ := Option.bind_eq_some_iff.mp eq
  cases eq
  rfl

theorem pick_named (qname : String) (kind : Option Nat) (nodes : List (RepoGraph × NodeId)) :
    (((nodes.filterMap named).filter fun x => x.1 = qname).filter fun x =>
      kind.all fun k => k = x.2.1).map (fun x => x.2.2) = pick (carriesQname qname kind) nodes := by
  have ids := pick_read (f := fun e => (named e).map fun x => ((x.1, x.2.1), x.2.2))
    (fun e x eq => by
      obtain ⟨y, eq', rfl⟩ := Option.map_eq_some_iff.mp eq
      exact named_id e y eq')
    (fun y => decide (y.1 = qname ∧ kind.all (fun k => k = y.2) = true)) nodes
  have test : (fun e => ((named e).map fun x => ((x.1, x.2.1), x.2.2)).any fun x =>
      decide (x.1.1 = qname ∧ kind.all (fun k => k = x.1.2) = true)) = carriesQname qname kind := by
    funext e
    unfold carriesQname
    cases named e <;> rfl
  rw [test, ← List.map_filterMap, List.filter_map, List.map_map] at ids
  rw [← ids, List.filter_filter]
  congr 1
  apply List.filter_congr
  intro x _
  simp [Bool.and_comm]

theorem identity_exactHits (m : MergedGraph) (qname : String) (kind : Option Nat) :
    ((IdentityIndex.build read m).exactHits qname kind).Perm
      (pick (carriesQname qname kind) (firstInstances m.graphs)) := by
  unfold IdentityIndex.exactHits IdentityIndex.build
  dsimp only
  rw [getElem?_pushAll _ rfl, ← pick_named]
  apply (((List.perm_insertionSort _ _).filter _).map _).trans
  rw [List.filter_map, List.map_map]
  exact List.Perm.refl _

theorem scoped_exactHits (m : MergedGraph) (repo : Option Nat) (qname : String)
    (kind : Option Nat) : ((QnameIndex.build read m repo).exactHits qname kind).Perm
      (pick (carriesQname qname kind) (firstInstances (m.graphs.filter (inScope repo)))) := by
  unfold QnameIndex.exactHits QnameIndex.build
  dsimp only
  rw [getElem?_pushAll _ rfl, ← pick_named]
  apply (((List.perm_insertionSort _ _).filter _).map _).trans
  rw [List.filter_map, List.filter_map, List.map_map, List.filter_map, List.map_map]
  exact List.Perm.refl _

theorem narrowed_hits (m : MergedGraph) (qname : String) (kind : Option Nat) (h : Identity) :
    (((IdentityIndex.build read m).exactHits qname kind).filter fun id =>
      id ∈ (IdentityIndex.build read m).keyHits h).Perm
      (pick (fun e => carriesQname qname kind e && carriesKey read h e)
        (firstInstances m.graphs)) := by
  apply ((identity_exactHits m qname kind).filter _).trans
  unfold pick
  rw [List.filter_map, List.filter_filter, keyHits_eq]
  apply List.Perm.of_eq
  congr 1
  apply List.filter_congr
  intro e mem
  have key : (e.2 ∈ sortIds (pick (carriesKey read h) (firstInstances m.graphs))) ↔
      carriesKey read h e = true := by
    rw [mem_sortIds, pick, List.mem_map]
    constructor
    · rintro ⟨e', mem', same⟩
      obtain ⟨inside, carried⟩ := List.mem_filter.mp mem'
      exact Kit.firsts_apart inside mem same ▸ carried
    · exact fun carried => ⟨e, List.mem_filter.mpr ⟨mem, carried⟩, rfl⟩
  rw [Bool.eq_iff_iff]
  simp [key, and_comm]

end Carries

section Scope
variable {read : NodeReader} {m : MergedGraph} {r : Nat}

def MergedGraph.only (m : MergedGraph) (r : Nat) : MergedGraph :=
  { m with graphs := m.graphs.filter (inScope (some r)) }

def ApartFrom (m : MergedGraph) (r : Nat) : Prop :=
  ∀ g ∈ m.graphs, ∀ g' ∈ m.graphs, g.repo = r → g'.repo ≠ r →
    ∀ n ∈ g.nodes, ∀ n' ∈ g'.nodes, n.id ≠ n'.id

theorem inScope_iff {g : RepoGraph} : inScope (some r) g = true ↔ g.repo = r := by
  simp [inScope, eq_comm]

theorem own_instances (apart : ApartFrom m r) :
    ((firstInstances m.graphs).filter fun e => inScope (some r) e.1) =
      firstInstances (m.only r).graphs := by
  unfold firstInstances MergedGraph.only
  rw [Kit.firsts_filter]
  · congr 1
    induction m.graphs with
    | nil => rfl
    | cons g rest ih =>
      rw [List.flatMap_cons, List.filter_append, ih, List.filter_map]
      cases own : inScope (some r) g with
      | true =>
        rw [List.filter_cons_of_pos own, List.flatMap_cons]
        simp [Function.comp_def, own]
      | false =>
        rw [List.filter_cons_of_neg (by simp [own])]
        simp [Function.comp_def, own]
  · intro a mem b mem' same
    obtain ⟨g, memG, n, memN, rfl⟩ : ∃ g ∈ m.graphs, ∃ n ∈ g.nodes, (g, n.id) = a := by
      simpa using mem
    obtain ⟨g', memG', n', memN', rfl⟩ : ∃ g ∈ m.graphs, ∃ n ∈ g.nodes, (g, n.id) = b := by
      simpa using mem'
    rw [Bool.eq_iff_iff, inScope_iff, inScope_iff]
    constructor <;> intro own <;> by_contra other
    · exact apart g memG g' memG' own other n memN n' memN' same
    · exact apart g' memG' g memG own other n' memN' n memN same.symm

theorem pick_own (apart : ApartFrom m r) {p : RepoGraph × NodeId → Bool}
    (clear : ∀ e ∈ firstInstances m.graphs, e.1.repo ≠ r → p e = false) :
    pick p (firstInstances m.graphs) = pick p (firstInstances (m.only r).graphs) := by
  unfold pick
  rw [← own_instances apart, List.filter_filter]
  congr 1
  apply List.filter_congr
  intro e mem
  by_cases own : e.1.repo = r
  · simp [inScope_iff.mpr own]
  · rw [clear e mem own, Bool.false_and]

theorem only_scope : (m.only r).graphs.filter (inScope (some r)) = (m.only r).graphs := by
  unfold MergedGraph.only
  rw [List.filter_filter]
  simp

theorem any_instances {repo : Option Nat} {id : NodeId} :
    ((instances m.graphs repo).any fun e => e.1 = id) = true ↔
      ∃ g ∈ m.graphs, inScope repo g = true ∧ ∃ n ∈ g.nodes, n.id = id := by
  rw [List.any_eq_true]
  constructor
  · rintro ⟨⟨id', p⟩, mem, same⟩
    obtain ⟨g, n, atG, own, atN, eq⟩ := mem_instances.mp mem
    exact ⟨g, List.mem_of_getElem? atG, own, n, List.mem_of_getElem? atN,
      eq.trans (of_decide_eq_true same)⟩
  · rintro ⟨g, memG, own, n, memN, eq⟩
    obtain ⟨a, atG⟩ := List.mem_iff_getElem?.mp memG
    obtain ⟨b, atN⟩ := List.mem_iff_getElem?.mp memN
    exact ⟨(id, a, b), mem_instances.mpr ⟨g, n, atG, own, atN, eq⟩, decide_eq_true rfl⟩

theorem only_places (id : NodeId) :
    (QnameIndex.build read (m.only r) (some r)).places.contains id =
      (QnameIndex.build read m (some r)).places.contains id := by
  have each (m : MergedGraph) : (QnameIndex.build read m (some r)).places.contains id =
      (instances m.graphs (some r)).any fun e => e.1 = id := Kit.contains_gather_push _ id
  rw [each, each, Bool.eq_iff_iff, any_instances, any_instances]
  constructor
  · rintro ⟨g, mem, found⟩
    exact ⟨g, (List.mem_filter.mp mem).1, found⟩
  · rintro ⟨g, mem, own, found⟩
    exact ⟨g, List.mem_filter.mpr ⟨mem, own⟩, own, found⟩

theorem only_exactHits (qname : String) (kind : Option Nat) :
    (QnameIndex.build read (m.only r) (some r)).exactHits qname kind =
      (QnameIndex.build read m (some r)).exactHits qname kind := by
  unfold QnameIndex.exactHits QnameIndex.build
  dsimp only
  rw [only_scope]
  rfl

variable (read m r) in
/-- A node that can decide a row its own repo does not bind by the qname alone: where the repo
has no node of the qname, any node of the qname or that the hint's key or body is true of; where
it has several, a node of both the qname and the hint's key. -/
def answers (qname : String) (kind : Option Nat) (h : Identity) (e : RepoGraph × NodeId) : Bool :=
  match pick (carriesQname qname kind) (firstInstances (m.only r).graphs) with
  | [] => carriesQname qname kind e || carriesKey read h e || carriesBody read h e
  | [_] => false
  | _ => carriesQname qname kind e && carriesKey read h e

def Clear (read : NodeReader) (m : MergedGraph) (r : Nat) (qname : String) (kind : Option Nat)
    (hint : Option String) : Prop :=
  ∀ h, IdentityIndex.usableHint kind hint = some h →
    ∀ e ∈ firstInstances m.graphs, e.1.repo ≠ r → answers read m r qname kind h e = false

end Scope

section Resolve
variable {read : NodeReader} {m : MergedGraph} {r : Nat} {qname : String} {kind : Option Nat}
  {hint : Option String} {h : Identity}

theorem perm_only {α : Type} {l l' : List α} (perm : l.Perm l') :
    (∃ x, l = [x] ∧ l' = [x]) ∨ (∀ x, l ≠ [x]) ∧ ∀ x, l' ≠ [x] := by
  by_cases single : ∃ x, l = [x]
  · obtain ⟨x, rfl⟩ := single
    exact .inl ⟨x, rfl, List.perm_singleton.mp perm.symm⟩
  · rw [not_exists] at single
    refine .inr ⟨single, fun x eq => ?_⟩
    subst eq
    exact single x (List.perm_singleton.mp perm)

theorem rebind_missing (apart : ApartFrom m r) (usable : IdentityIndex.usableHint kind hint = some h)
    (clear : ∀ e ∈ firstInstances m.graphs, e.1.repo ≠ r →
      (carriesQname qname kind e || carriesKey read h e || carriesBody read h e) = false)
    (missing : pick (carriesQname qname kind) (firstInstances (m.only r).graphs) = []) :
    (IdentityIndex.build read m).rebind qname kind hint =
      (IdentityIndex.build read (m.only r)).rebind qname kind hint := by
  have clearEach : ∀ e ∈ firstInstances m.graphs, e.1.repo ≠ r → carriesQname qname kind e = false ∧
      carriesKey read h e = false ∧ carriesBody read h e = false := by
    intro e mem other
    have none := clear e mem other
    rw [Bool.or_eq_false_iff, Bool.or_eq_false_iff] at none
    exact ⟨none.1.1, none.1.2, none.2⟩
  have whole : (IdentityIndex.build read m).exactHits qname kind = [] := by
    apply List.Perm.eq_nil
    rw [← missing, ← pick_own apart fun e mem other => (clearEach e mem other).1]
    exact identity_exactHits m qname kind
  have own : (IdentityIndex.build read (m.only r)).exactHits qname kind = [] := by
    apply List.Perm.eq_nil
    rw [← missing]
    exact identity_exactHits (m.only r) qname kind
  have keys : (IdentityIndex.build read m).keyHits h =
      (IdentityIndex.build read (m.only r)).keyHits h := by
    rw [keyHits_eq, keyHits_eq, pick_own apart fun e mem other => (clearEach e mem other).2.1]
  have bodies : (IdentityIndex.build read m).bodyHits h =
      (IdentityIndex.build read (m.only r)).bodyHits h := by
    rw [bodyHits_eq, bodyHits_eq, pick_own apart fun e mem other => (clearEach e mem other).2.2]
  unfold IdentityIndex.rebind
  rw [whole, own, usable]
  dsimp only
  unfold IdentityIndex.rebindMoved
  rw [keys, bodies]

theorem exists_two {α : Type} {l : List α} (several : 2 ≤ l.length) :
    ∃ x y rest, l = x :: y :: rest := by
  match l, several with
  | x :: y :: rest, _ => exact ⟨x, y, rest, rfl⟩

theorem rebind_narrowed {idx : IdentityIndex} (usable : IdentityIndex.usableHint kind hint = some h)
    (several : 2 ≤ (idx.exactHits qname kind).length) :
    idx.rebind qname kind hint =
      match (idx.exactHits qname kind).filter fun id => id ∈ idx.keyHits h with
      | [only] => .exact only
      | _ => .ambiguous (idx.exactHits qname kind) := by
  obtain ⟨x, y, rest, eq⟩ := exists_two several
  unfold IdentityIndex.rebind
  generalize idx.exactHits qname kind = exact at eq ⊢
  generalize IdentityIndex.usableHint kind hint = hinted at usable ⊢
  subst eq usable
  rfl

theorem rebind_unusable {idx : IdentityIndex} (unusable : IdentityIndex.usableHint kind hint = none) :
    (∀ id tier, idx.rebind qname kind hint ≠ .moved id tier) ∧
      (2 ≤ (idx.exactHits qname kind).length → ∀ id, idx.rebind qname kind hint ≠ .exact id) := by
  unfold IdentityIndex.rebind
  dsimp only
  rw [unusable]
  split <;> simp_all

theorem whole_several (apart : ApartFrom m r)
    (several : 2 ≤ (pick (carriesQname qname kind) (firstInstances (m.only r).graphs)).length) :
    2 ≤ ((IdentityIndex.build read m).exactHits qname kind).length ∧
      2 ≤ ((IdentityIndex.build read (m.only r)).exactHits qname kind).length := by
  constructor
  · rw [(identity_exactHits m qname kind).length_eq]
    apply several.trans
    unfold pick
    rw [List.length_map, List.length_map, ← own_instances apart]
    exact (List.filter_sublist.filter _).length_le
  · exact (identity_exactHits (m.only r) qname kind).length_eq ▸ several

/-- Where the repo has several nodes of the qname, and no other node is of both the qname and the
hint's key, the hint singles out the same one or none. -/
theorem rebind_several (apart : ApartFrom m r) (usable : IdentityIndex.usableHint kind hint = some h)
    (clear : ∀ e ∈ firstInstances m.graphs, e.1.repo ≠ r →
      (carriesQname qname kind e && carriesKey read h e) = false)
    (several : 2 ≤ (pick (carriesQname qname kind) (firstInstances (m.only r).graphs)).length) :
    (∃ id, (IdentityIndex.build read m).rebind qname kind hint = .exact id ∧
      (IdentityIndex.build read (m.only r)).rebind qname kind hint = .exact id) ∨
    (∃ ids ids', (IdentityIndex.build read m).rebind qname kind hint = .ambiguous ids ∧
      (IdentityIndex.build read (m.only r)).rebind qname kind hint = .ambiguous ids') := by
  obtain ⟨whole, own⟩ := whole_several apart several
  have narrowed := (narrowed_hits m qname kind h).trans
    ((pick_own apart clear ▸ narrowed_hits (m.only r) qname kind h).symm)
  rw [rebind_narrowed usable whole, rebind_narrowed usable own]
  rcases perm_only narrowed with ⟨x, eq, eq'⟩ | ⟨apart, apart'⟩
  · rw [eq, eq']
    exact .inl ⟨x, rfl, rfl⟩
  · right
    refine ⟨(IdentityIndex.build read m).exactHits qname kind,
      (IdentityIndex.build read (m.only r)).exactHits qname kind, ?_, ?_⟩
    · split
      · rename_i eq
        exact absurd eq (apart _)
      · rfl
    · split
      · rename_i eq
        exact absurd eq (apart' _)
      · rfl

theorem resolveId_missing {idx : QnameIndex} (missing : idx.exactHits qname kind = []) :
    idx.resolveId qname kind hint =
      match idx.identity.rebind qname kind hint with
      | .moved id tier =>
        if hint.isSome ∧ idx.places.contains id then .rekeyed id tier else .orphaned
      | _ => .orphaned := by
  unfold QnameIndex.resolveId
  rw [missing]
  dsimp only
  cases hint with
  | none => cases idx.identity.rebind qname kind none <;> simp
  | some s => cases idx.identity.rebind qname kind (some s) <;> simp

theorem resolveId_several {idx : QnameIndex} {x y : NodeId} {rest : List NodeId}
    (several : idx.exactHits qname kind = x :: y :: rest) :
    idx.resolveId qname kind hint =
      match idx.identity.rebind qname kind hint with
      | .exact id => if hint.isSome ∧ id ∈ x :: y :: rest then .bound id else .ambiguous x
      | _ => .ambiguous x := by
  unfold QnameIndex.resolveId
  rw [several]
  dsimp only
  cases hint with
  | none => cases idx.identity.rebind qname kind none <;> simp
  | some s => cases idx.identity.rebind qname kind (some s) <;> simp

theorem missing_unusable {idx : QnameIndex} (missing : idx.exactHits qname kind = [])
    (unusable : IdentityIndex.usableHint kind hint = none) :
    idx.resolveId qname kind hint = .orphaned := by
  rw [resolveId_missing missing]
  split
  · rename_i eq
    exact absurd eq ((rebind_unusable unusable).1 _ _)
  · rfl

theorem several_unusable {idx : QnameIndex} {x y : NodeId} {rest : List NodeId}
    (several : idx.exactHits qname kind = x :: y :: rest)
    (whole : 2 ≤ (idx.identity.exactHits qname kind).length)
    (unusable : IdentityIndex.usableHint kind hint = none) :
    idx.resolveId qname kind hint = .ambiguous x := by
  rw [resolveId_several several]
  split
  · rename_i eq
    exact absurd eq ((rebind_unusable unusable).2 whole _)
  · rfl

theorem resolveId_only (apart : ApartFrom m r) (clear : Clear read m r qname kind hint) :
    (QnameIndex.build read m (some r)).resolveId qname kind hint =
      (QnameIndex.build read (m.only r) (some r)).resolveId qname kind hint := by
  have own : ((QnameIndex.build read (m.only r) (some r)).exactHits qname kind).Perm
      (pick (carriesQname qname kind) (firstInstances (m.only r).graphs)) := by
    have perm := @scoped_exactHits read (m.only r) (some r) qname kind
    rw [only_scope] at perm
    exact perm
  have same := @only_exactHits read m r qname kind
  cases hits : (QnameIndex.build read (m.only r) (some r)).exactHits qname kind with
  | nil =>
    rw [hits] at own same
    have missing := own.symm.eq_nil
    cases usable : IdentityIndex.usableHint kind hint with
    | none => rw [missing_unusable same.symm usable, missing_unusable hits usable]
    | some h =>
      have clear' := clear h usable
      unfold answers at clear'
      rw [missing] at clear'
      have rebound := rebind_missing apart usable clear' missing
      rw [resolveId_missing same.symm, resolveId_missing hits]
      simp only [only_places]
      unfold QnameIndex.build
      rw [rebound]
  | cons x tail =>
    cases tail with
    | nil =>
      unfold QnameIndex.resolveId
      rw [← same, hits]
    | cons y rest =>
      rw [hits] at own same
      have several : 2 ≤ (pick (carriesQname qname kind) (firstInstances (m.only r).graphs)).length := by
        rw [← own.length_eq]
        simp
      obtain ⟨whole, whole'⟩ := whole_several apart several
      cases usable : IdentityIndex.usableHint kind hint with
      | none =>
        rw [several_unusable same.symm whole usable, several_unusable hits whole' usable]
      | some h =>
        have clear' := clear h usable
        unfold answers at clear'
        obtain ⟨a, b, more, eq⟩ := exists_two several
        rw [eq] at clear'
        rw [resolveId_several same.symm, resolveId_several hits]
        unfold QnameIndex.build
        rcases rebind_several apart usable clear' several with ⟨id, one, one'⟩ | ⟨_, _, many, many'⟩
        · rw [one, one']
        · rw [many, many']

end Resolve

section Binding

def wantedKind : Option String → Option (Option Nat)
  | none => some none
  | some name => (QnameIndex.kindId name).map some

theorem resolve_only {read : NodeReader} {m : MergedGraph} {r : Nat} {debug : String → String}
    {qname : String} {kind hint : Option String} (apart : ApartFrom m r)
    (clear : ∀ k, wantedKind kind = some k → Clear read m r qname k hint) :
    (QnameIndex.build read m (some r)).resolve debug qname kind hint =
      (QnameIndex.build read (m.only r) (some r)).resolve debug qname kind hint := by
  unfold QnameIndex.resolve
  cases kind with
  | none => exact resolveId_only apart (clear none rfl)
  | some name =>
    dsimp only
    cases known : QnameIndex.kindId name with
    | none => rfl
    | some k =>
      have asked : wantedKind (some name) = some (some k) := by
        change (QnameIndex.kindId name).map some = some (some k)
        rw [known]
        rfl
      exact resolveId_only apart (clear (some k) asked)

theorem resolve_congr {read : NodeReader} {m m' : MergedGraph} {r : Nat}
    (same : (m'.only r).graphs = (m.only r).graphs) :
    QnameIndex.build read (m'.only r) (some r) = QnameIndex.build read (m.only r) (some r) := by
  unfold QnameIndex.build IdentityIndex.build
  rw [same]

/-- A binding scoped to a repo is that over the repo's graphs alone, and stays as it is whatever
the other repos hold, as long as none of their nodes answers the row's hint. -/
theorem scoped_binding (read : NodeReader) (debug : String → String) (m : MergedGraph) (r : Nat)
    (qname : String) (kind hint : Option String) (apart : ApartFrom m r)
    (clear : ∀ k, wantedKind kind = some k → Clear read m r qname k hint) :
    (QnameIndex.build read m (some r)).resolve debug qname kind hint =
        (QnameIndex.build read (m.only r) (some r)).resolve debug qname kind hint ∧
      ∀ m' : MergedGraph, (m'.only r).graphs = (m.only r).graphs → ApartFrom m' r →
        (∀ k, wantedKind kind = some k → Clear read m' r qname k hint) →
        (QnameIndex.build read m' (some r)).resolve debug qname kind hint =
          (QnameIndex.build read m (some r)).resolve debug qname kind hint := by
  have alone := @resolve_only read m r debug qname kind hint apart clear
  refine ⟨alone, fun m' same apart' clear' => ?_⟩
  rw [resolve_only apart' clear', alone, resolve_congr same]

/-- A function `f` of `a.py`, its module moved from `old` to `pkg`, and a function of another
repo. -/
def withForeign (foreign : String) : MergedGraph :=
  let file : Cell := ⟨CellType.position, .json "\x7b\"file\":\"pkg/a.py\"\x7d"⟩
  let nav : CodeNav :=
    { nameById := ((∅ : IdMap String).insert 10 "pkg").insert 11 "f"
      qnameById := ((∅ : IdMap String).insert 10 "pkg").insert 11 "pkg::f"
      kindById := ((∅ : IdMap Nat).insert 10 1).insert 11 3
      parentOf := (∅ : IdMap NodeId).insert 11 10 }
  let other : CodeNav :=
    { qnameById := (∅ : IdMap String).insert 20 foreign, kindById := (∅ : IdMap Nat).insert 20 3 }
  { graphs := [{ repo := 1, nodes := [⟨10, .strong, [file]⟩, ⟨11, .strong, [file]⟩], nav := nav },
      { repo := 2, nodes := [⟨20, .strong, []⟩], nav := other }] }

def movedRow (m : MergedGraph) : CellTarget :=
  (QnameIndex.build (nodeReader fun _ => false) m (some 1)).resolve id "old::f" (some "FUNCTION")
    (some "v1|3|a.py|0000000000000000|f")

theorem scoped_binding_moved :
    movedRow (withForeign "lib::g") = movedRow ((withForeign "lib::g").only 1) := by
  apply (scoped_binding (nodeReader fun _ => false) id (withForeign "lib::g") 1 "old::f"
    (some "FUNCTION") (some "v1|3|a.py|0000000000000000|f") ?_ ?_).1
  · unfold ApartFrom
    decide +kernel
  · intro k asked h usable
    have function : wantedKind (some "FUNCTION") = some (some 3) := by decide +kernel
    have parsed : IdentityIndex.usableHint (some 3) (some "v1|3|a.py|0000000000000000|f") =
        some ⟨3, "a.py", "f", 0⟩ := by decide +kernel
    rw [function] at asked
    cases asked
    rw [parsed] at usable
    cases usable
    decide +kernel

/-- A node another repo adds under the row's old qname keeps the row from following the move. -/
theorem foreign_qname_orphans :
    movedRow (withForeign "old::f") ≠ movedRow ((withForeign "old::f").only 1) := by
  decide +kernel

end Binding

end Glia.Graph
