import Glia.Graph.Identity
import Mathlib

/-! The export's file tokens, carried from build to build along the moves found. -/
namespace Glia.Graph

open Glia.Kit (OrdMap)

def numbered (base : String) (n : Nat) : String := base ++ "#" ++ toString n

theorem numbered_injective (base : String) : Function.Injective (numbered base) := by
  intro i j same
  apply Text.toString_inj
  simpa [numbered] using congrArg String.toList same

def takenFrom (taken : Finset String) (base : String) (n : Nat) : Set String :=
  {t | t ∈ taken ∧ ∃ m, n ≤ m ∧ numbered base m = t}

theorem takenFrom_finite (taken : Finset String) (base : String) (n : Nat) :
    (takenFrom taken base n).Finite := taken.finite_toSet.subset fun _ h => h.1

theorem takenFrom_ssubset {taken : Finset String} {base : String} {n : Nat}
    (held : numbered base n ∈ taken) : takenFrom taken base (n + 1) ⊂ takenFrom taken base n := by
  refine ⟨fun t h => ⟨h.1, ?_⟩, fun all => ?_⟩
  · obtain ⟨m, le, eq⟩ := h.2
    exact ⟨m, by omega, eq⟩
  · obtain ⟨_, m, le, eq⟩ := all ⟨held, n, le_rfl, rfl⟩
    have := numbered_injective base eq
    omega

def freeNumbered (taken : Finset String) (base : String) (n : Nat) : String :=
  if numbered base n ∈ taken then freeNumbered taken base (n + 1) else numbered base n
termination_by (takenFrom taken base n).ncard
decreasing_by
  rename_i held
  exact Set.ncard_lt_ncard (takenFrom_ssubset held) (takenFrom_finite taken base n)

def freshToken (taken : Finset String) (base : String) : String :=
  if base ∈ taken then freeNumbered taken base 2 else base

def movedFrom (moves : MoveMap) (f : String) : Option String :=
  (moves.files.find? fun m => m.newPath = f).map FileMove.oldPath

def vacated (moves : MoveMap) (f : String) : Bool := moves.files.any fun m => m.oldPath = f

/-- A file's carried token, or the base its fresh one starts from: the old path of a moved
file, else its own. -/
def carriedToken (prior : OrdMap String String) (moves : MoveMap) (f : String) :
    Except String String :=
  match movedFrom moves f with
  | some old => (prior[old]?).elim (.error old) .ok
  | none => if vacated moves f then .error f else (prior[f]?).elim (.error f) .ok

def freshBase (prior : OrdMap String String) (moves : MoveMap) (f : String) : Option String :=
  match carriedToken prior moves f with
  | .ok _ => none
  | .error base => some base

def fileSet (currentFiles : List String) : List String :=
  currentFiles.dedup.insertionSort (· ≤ ·)

def mint (s : Finset String × OrdMap String String) (e : String × String) :
    Finset String × OrdMap String String :=
  let token := freshToken s.1 e.2
  (insert token s.1, s.2.insert e.1 token)

/-- Carry a path to token map across moves: a moved file keeps its old path's token, a file
that stayed its own, and any other gets a fresh one. -/
def carryFileTokens (prior : OrdMap String String) (moves : MoveMap)
    (currentFiles : List String) : OrdMap String String :=
  let files := fileSet currentFiles
  let carried := files.filterMap fun f => (carriedToken prior moves f).toOption.map fun t => (f, t)
  let fresh := files.filterMap fun f => (freshBase prior moves f).map fun base => (f, base)
  let out : OrdMap String String := .ofList carried compare
  let taken := (carried.map Prod.snd ++ prior.toList.map Prod.snd).toFinset
  (fresh.foldl mint (taken, out)).2

end Glia.Graph

/-! File tokens stay unique and follow moves, over one build and over a run of builds. -/
namespace Glia.Graph

open Glia.Kit (OrdMap)

section Fresh

theorem freeNumbered_free (taken : Finset String) (base : String) (n : Nat) :
    freeNumbered taken base n ∉ taken := by
  fun_induction freeNumbered taken base n with
  | case1 n held ih => exact ih
  | case2 n free => exact free

theorem freshToken_free (taken : Finset String) (base : String) :
    freshToken taken base ∉ taken := by
  unfold freshToken
  split
  · exact freeNumbered_free taken base 2
  · assumption

/-- Minting gives each file a token of its own that was not taken, and touches no other file. -/
theorem foldl_mint {fresh : List (String × String)} (once : (fresh.map Prod.fst).Nodup)
    (s : Finset String × OrdMap String String) :
    let out := (fresh.foldl mint s).2
    (∀ f, f ∉ fresh.map Prod.fst → out[f]? = s.2[f]?) ∧
      (∀ f ∈ fresh.map Prod.fst, ∃ t, out[f]? = some t ∧ t ∉ s.1) ∧
      ∀ f ∈ fresh.map Prod.fst, ∀ g ∈ fresh.map Prod.fst, ∀ t,
        out[f]? = some t → out[g]? = some t → f = g := by
  induction fresh generalizing s with
  | nil => exact ⟨fun f _ => rfl, by simp, by simp⟩
  | cons e rest ih =>
    rw [List.map_cons, List.nodup_cons] at once
    obtain ⟨absent, once⟩ := once
    obtain ⟨kept, minted, apart⟩ := ih once (mint s e)
    have first : ((e :: rest).foldl mint s).2[e.1]? = some (freshToken s.1 e.2) := by
      rw [List.foldl_cons, kept e.1 absent, mint, OrdMap.get_insert, if_pos rfl]
    -- a later token is not the first one's
    have later : ∀ f ∈ rest.map Prod.fst, ∀ t, ((e :: rest).foldl mint s).2[f]? = some t →
        t ∉ s.1 ∧ t ≠ freshToken s.1 e.2 := by
      intro f mem t eq
      obtain ⟨t', eq', free⟩ := minted f mem
      rw [List.foldl_cons, eq'] at eq
      cases eq
      rw [mint, Finset.mem_insert, not_or] at free
      exact ⟨free.2, free.1⟩
    refine ⟨fun f other => ?_, fun f mem => ?_, fun f memF g memG t eqF eqG => ?_⟩
    · rw [List.map_cons, List.mem_cons, not_or] at other
      rw [List.foldl_cons, kept f other.2, mint, OrdMap.get_insert, if_neg (Ne.symm other.1)]
    · rcases List.mem_cons.mp mem with rfl | mem
      · exact ⟨_, first, freshToken_free s.1 e.2⟩
      · obtain ⟨t, eq, _⟩ := minted f mem
        exact ⟨t, eq, (later f mem t eq).1⟩
    · rcases List.mem_cons.mp memF with rfl | memF
      · rcases List.mem_cons.mp memG with rfl | memG
        · rfl
        · rw [first] at eqF
          cases eqF
          exact absurd rfl (later g memG _ eqG).2
      · rcases List.mem_cons.mp memG with rfl | memG
        · rw [first] at eqG
          cases eqG
          exact absurd rfl (later f memF _ eqF).2
        · exact apart f memF g memG t eqF eqG

end Fresh

section Carried

variable {prior : OrdMap String String} {moves : MoveMap}

/-- The prior path whose token a file carries: a moved file's old path, an unmoved file's own
unless a move vacated it. -/
def carriedFrom (moves : MoveMap) (f : String) : Option String :=
  match movedFrom moves f with
  | some old => some old
  | none => if vacated moves f then none else some f

theorem carriedToken_ok {f t : String} : carriedToken prior moves f = .ok t ↔
    ∃ source, carriedFrom moves f = some source ∧ prior[source]? = some t := by
  unfold carriedToken carriedFrom
  cases movedFrom moves f with
  | some old => cases eq : prior[old]? <;> simp [eq]
  | none =>
    cases vacated moves f with
    | true => simp
    | false => cases eq : prior[f]? <;> simp [eq]

theorem movedFrom_some {f old : String} (eq : movedFrom moves f = some old) :
    ∃ m ∈ moves.files, m.newPath = f ∧ m.oldPath = old := by
  obtain ⟨m, found, rfl⟩ := Option.map_eq_some_iff.mp eq
  exact ⟨m, List.mem_of_find?_eq_some found, by simpa using List.find?_some found, rfl⟩

theorem vacated_iff {f : String} : vacated moves f = true ↔ ∃ m ∈ moves.files, m.oldPath = f := by
  simp [vacated]

structure OneToOne (moves : MoveMap) : Prop where
  old : (moves.files.map FileMove.oldPath).Nodup
  new : (moves.files.map FileMove.newPath).Nodup

variable (once : OneToOne moves)

include once in
theorem carriedFrom_inj {f g source : String} (hf : carriedFrom moves f = some source)
    (hg : carriedFrom moves g = some source) : f = g := by
  have moved : ∀ {f g}, movedFrom moves f = some source → movedFrom moves g = some source →
      f = g := by
    intro f g hf hg
    obtain ⟨m, mem, rfl, same⟩ := movedFrom_some hf
    obtain ⟨m', mem', rfl, same'⟩ := movedFrom_some hg
    rw [List.inj_on_of_nodup_map once.old mem mem' (same.trans same'.symm)]
  have stayed : ∀ {f g}, movedFrom moves f = some source → vacated moves g = false →
      g ≠ source := by
    intro f g moved stays same
    obtain ⟨m, mem, _, old⟩ := movedFrom_some moved
    rw [vacated_iff.mpr ⟨m, mem, old.trans same.symm⟩] at stays
    cases stays
  unfold carriedFrom at hf hg
  split at hf
  · rename_i eqF
    cases hf
    split at hg
    · rename_i eqG
      cases hg
      exact moved eqF eqG
    · split at hg
      · cases hg
      · rename_i here
        cases hg
        exact absurd rfl (stayed eqF (by simpa using here))
  · split at hf
    · cases hf
    · rename_i hereF
      cases hf
      split at hg
      · rename_i eqG
        cases hg
        exact absurd rfl (stayed eqG (by simpa using hereF))
      · split at hg
        · cases hg
        · cases hg
          rfl

include once in
theorem carriedFrom_moved {m : FileMove} (mem : m ∈ moves.files) :
    carriedFrom moves m.newPath = some m.oldPath := by
  have found : movedFrom moves m.newPath = some m.oldPath := by
    cases eq : moves.files.find? fun m' => m'.newPath = m.newPath with
    | none =>
      have := List.find?_eq_none.mp eq m mem
      simp at this
    | some m' =>
      have same : m'.newPath = m.newPath := by simpa using List.find?_some eq
      rw [movedFrom, eq, List.inj_on_of_nodup_map once.new (List.mem_of_find?_eq_some eq) mem same]
      rfl
  rw [carriedFrom, found]

theorem carriedFrom_unmoved {f : String} (unmoved : ∀ m ∈ moves.files, m.newPath ≠ f)
    (stays : ∀ m ∈ moves.files, m.oldPath ≠ f) : carriedFrom moves f = some f := by
  have none : movedFrom moves f = none := by
    rw [movedFrom, Option.map_eq_none_iff, List.find?_eq_none]
    intro m mem
    simpa using unmoved m mem
  have here : vacated moves f = false := by
    rw [Bool.eq_false_iff, ne_eq, vacated_iff]
    rintro ⟨m, mem, same⟩
    exact stays m mem same
  rw [carriedFrom, none]
  simp [here]

end Carried

section Build

variable (prior : OrdMap String String) (moves : MoveMap) (currentFiles : List String)

theorem mem_fileSet {f : String} : f ∈ fileSet currentFiles ↔ f ∈ currentFiles := by
  rw [fileSet, List.mem_insertionSort, List.mem_dedup]

theorem fileSet_nodup : (fileSet currentFiles).Nodup :=
  (List.perm_insertionSort _ _).nodup_iff.mpr (List.nodup_dedup _)

theorem pairs_keys (files : List String) (h : String → Option String) :
    (files.filterMap fun f => (h f).map fun t => (f, t)).map Prod.fst =
      files.filter fun f => (h f).isSome := by
  induction files with
  | nil => rfl
  | cons f rest ih =>
    rw [List.filterMap_cons, List.filter_cons]
    cases h f with
    | none => simpa using ih
    | some t => simpa using ih

theorem mem_pairs {files : List String} {h : String → Option String} {f t : String} :
    (f, t) ∈ files.filterMap (fun f => (h f).map fun t => (f, t)) ↔ f ∈ files ∧ h f = some t := by
  rw [List.mem_filterMap]
  constructor
  · rintro ⟨g, mem, eq⟩
    obtain ⟨t', found, same⟩ := Option.map_eq_some_iff.mp eq
    cases same
    exact ⟨mem, found⟩
  · rintro ⟨mem, found⟩
    exact ⟨f, mem, by rw [found]; rfl⟩

theorem get_ofList {l : List (String × String)} (once : (l.map Prod.fst).Nodup) (f : String) :
    (∀ t, (f, t) ∈ l → (Std.ExtTreeMap.ofList l compare : OrdMap String String)[f]? = some t) ∧
      (f ∉ l.map Prod.fst →
        (Std.ExtTreeMap.ofList l compare : OrdMap String String)[f]? = none) := by
  constructor
  · intro t mem
    refine Std.ExtTreeMap.getElem?_ofList_of_mem (compare_eq_iff_eq.mpr rfl) ?_ mem
    exact (List.pairwise_map.mp once).imp fun ne same => ne (compare_eq_iff_eq.mp same)
  · intro absent
    apply Std.ExtTreeMap.getElem?_ofList_of_contains_eq_false
    rw [List.contains_eq_mem]
    simpa using absent

theorem carry_spec :
    let out := carryFileTokens prior moves currentFiles
    (∀ f ∈ currentFiles, ∀ t, carriedToken prior moves f = .ok t → out[f]? = some t) ∧
    (∀ f, f ∉ currentFiles → out[f]? = none) ∧
    (∀ f ∈ currentFiles, freshBase prior moves f ≠ none → ∃ t, out[f]? = some t ∧
      (∀ g ∈ currentFiles, carriedToken prior moves g ≠ .ok t) ∧
      ∀ p : String, prior[p]? ≠ some t) ∧
    ∀ f ∈ currentFiles, ∀ g ∈ currentFiles, freshBase prior moves f ≠ none →
      freshBase prior moves g ≠ none → ∀ t, out[f]? = some t → out[g]? = some t → f = g := by
  let files := fileSet currentFiles
  let carries := fun f => (carriedToken prior moves f).toOption
  let carried := files.filterMap fun f => (carries f).map fun t => (f, t)
  let fresh := files.filterMap fun f => (freshBase prior moves f).map fun base => (f, base)
  let start : OrdMap String String := .ofList carried compare
  let taken := (carried.map Prod.snd ++ prior.toList.map Prod.snd).toFinset
  have carriedKeys : carried.map Prod.fst = files.filter fun f => (carries f).isSome :=
    pairs_keys files carries
  have freshKeys : fresh.map Prod.fst = files.filter fun f => (freshBase prior moves f).isSome :=
    pairs_keys files (freshBase prior moves)
  have once := fileSet_nodup currentFiles
  obtain ⟨kept, minted, apart⟩ := foldl_mint
    (freshKeys ▸ once.filter _) (taken, start)
  have mem_fresh : ∀ f, f ∈ fresh.map Prod.fst ↔
      f ∈ currentFiles ∧ freshBase prior moves f ≠ none := by
    intro f
    rw [freshKeys, List.mem_filter, mem_fileSet, Option.isSome_iff_ne_none]
  have mem_carried : ∀ f t, (f, t) ∈ carried ↔
      f ∈ currentFiles ∧ carriedToken prior moves f = .ok t := by
    intro f t
    rw [mem_pairs, mem_fileSet]
    show f ∈ currentFiles ∧ (carriedToken prior moves f).toOption = some t ↔ _
    cases carriedToken prior moves f <;> simp [Except.toOption]
  have started := get_ofList (carriedKeys ▸ once.filter _)
  refine ⟨fun f mem t ok => ?_, fun f out => ?_, fun f mem base => ?_, ?_⟩
  · have notFresh : f ∉ fresh.map Prod.fst := by
      rw [mem_fresh]
      rintro ⟨_, base⟩
      exact base (by rw [freshBase, ok])
    exact (kept f notFresh).trans ((started f).1 t ((mem_carried f t).mpr ⟨mem, ok⟩))
  · have notFresh : f ∉ fresh.map Prod.fst := fun there => out ((mem_fresh f).mp there).1
    refine (kept f notFresh).trans ((started f).2 fun there => ?_)
    rw [carriedKeys, List.mem_filter, mem_fileSet] at there
    exact out there.1
  · obtain ⟨t, got, free⟩ := minted f ((mem_fresh f).mpr ⟨mem, base⟩)
    have notTaken : t ∉ carried.map Prod.snd ++ prior.toList.map Prod.snd :=
      fun there => free (List.mem_toFinset.mpr there)
    rw [List.mem_append, not_or] at notTaken
    refine ⟨t, got, fun g there ok => ?_, fun p held => ?_⟩
    · exact notTaken.1 (List.mem_map.mpr ⟨(g, t), (mem_carried g t).mpr ⟨there, ok⟩, rfl⟩)
    · exact notTaken.2 (List.mem_map.mpr ⟨(p, t), OrdMap.mem_toList.mpr held, rfl⟩)
  · intro f memF g memG baseF baseG
    exact apart f ((mem_fresh f).mpr ⟨memF, baseF⟩) g ((mem_fresh g).mpr ⟨memG, baseG⟩)

def Distinct (tokens : OrdMap String String) : Prop :=
  ∀ p q t : String, tokens[p]? = some t → tokens[q]? = some t → p = q

variable {prior moves currentFiles}

theorem freshBase_none {f : String} (absent : freshBase prior moves f = none) :
    ∃ t, carriedToken prior moves f = .ok t := by
  unfold freshBase at absent
  cases eq : carriedToken prior moves f with
  | ok t => exact ⟨t, rfl⟩
  | error base =>
    rw [eq] at absent
    cases absent

theorem Distinct.carry (distinct : Distinct prior) (once : OneToOne moves) :
    Distinct (carryFileTokens prior moves currentFiles) := by
  obtain ⟨carried, outside, fresh, apart⟩ := carry_spec prior moves currentFiles
  intro p q t eqP eqQ
  have current : ∀ {f}, (carryFileTokens prior moves currentFiles)[f]? = some t →
      f ∈ currentFiles := by
    intro f eq
    by_contra out
    rw [outside f out] at eq
    cases eq
  -- a fresh token is no carried one
  have mixed : ∀ {f g u}, f ∈ currentFiles → g ∈ currentFiles →
      freshBase prior moves f ≠ none → carriedToken prior moves g = .ok u →
      (carryFileTokens prior moves currentFiles)[f]? = some t → u ≠ t := by
    rintro f g u memF memG base ok eq rfl
    obtain ⟨t', got, free, _⟩ := fresh f memF base
    rw [eq] at got
    cases got
    exact free g memG ok
  by_cases freshP : freshBase prior moves p = none
  · obtain ⟨u, okP⟩ := freshBase_none freshP
    have gotP := carried p (current eqP) u okP
    rw [eqP] at gotP
    cases gotP
    by_cases freshQ : freshBase prior moves q = none
    · obtain ⟨v, okQ⟩ := freshBase_none freshQ
      have gotQ := carried q (current eqQ) v okQ
      rw [eqQ] at gotQ
      cases gotQ
      obtain ⟨s, sourceP, heldP⟩ := carriedToken_ok.mp okP
      obtain ⟨s', sourceQ, heldQ⟩ := carriedToken_ok.mp okQ
      rw [distinct s s' t heldP heldQ] at sourceP
      exact carriedFrom_inj once sourceP sourceQ
    · exact absurd rfl (mixed (current eqQ) (current eqP) freshQ okP eqQ)
  · by_cases freshQ : freshBase prior moves q = none
    · obtain ⟨v, okQ⟩ := freshBase_none freshQ
      have gotQ := carried q (current eqQ) v okQ
      rw [eqQ] at gotQ
      cases gotQ
      exact absurd rfl (mixed (current eqP) (current eqQ) freshP okQ eqP)
    · exact apart p (current eqP) q (current eqQ) freshP freshQ t eqP eqQ

theorem carry_mem (f : String) :
    (carryFileTokens prior moves currentFiles)[f]? ≠ none ↔ f ∈ currentFiles := by
  obtain ⟨carried, outside, fresh, _⟩ := carry_spec prior moves currentFiles
  constructor
  · intro some
    by_contra out
    exact some (outside f out)
  · intro mem
    by_cases base : freshBase prior moves f = none
    · obtain ⟨t, ok⟩ := freshBase_none base
      rw [carried f mem t ok]
      exact Option.some_ne_none t
    · obtain ⟨t, got, _⟩ := fresh f mem base
      rw [got]
      exact Option.some_ne_none t

theorem carry_keeps {f source t : String} (mem : f ∈ currentFiles)
    (carried : carriedFrom moves f = some source) (held : prior[source]? = some t) :
    (carryFileTokens prior moves currentFiles)[f]? = some t :=
  (carry_spec prior moves currentFiles).1 f mem t (carriedToken_ok.mpr ⟨source, carried, held⟩)

end Build

section Runs

structure TokenBuild where
  moves : MoveMap
  files : List String

def tokensAfter (prior : OrdMap String String) (builds : List TokenBuild) : OrdMap String String :=
  builds.foldl (fun tokens b => carryFileTokens tokens b.moves b.files) prior

structure TokenBuild.Stays (b : TokenBuild) (f : String) : Prop where
  there : f ∈ b.files
  unmoved : ∀ m ∈ b.moves.files, m.newPath ≠ f
  stays : ∀ m ∈ b.moves.files, m.oldPath ≠ f

variable {prior : OrdMap String String} {builds : List TokenBuild}

theorem tokensAfter_distinct (distinct : Distinct prior)
    (once : ∀ b ∈ builds, OneToOne b.moves) : Distinct (tokensAfter prior builds) := by
  induction builds generalizing prior with
  | nil => exact distinct
  | cons b rest ih =>
    exact ih (distinct.carry (once b List.mem_cons_self))
      fun c mem => once c (List.mem_cons_of_mem _ mem)

theorem tokensAfter_keeps {f t : String} (held : prior[f]? = some t)
    (stays : ∀ b ∈ builds, b.Stays f) : (tokensAfter prior builds)[f]? = some t := by
  induction builds generalizing prior with
  | nil => exact held
  | cons b rest ih =>
    have here := stays b List.mem_cons_self
    refine ih ?_ fun c mem => stays c (List.mem_cons_of_mem _ mem)
    exact carry_keeps here.there (carriedFrom_unmoved here.unmoved here.stays) held

/-- Over one build each current file gets one token and nothing else any, all distinct; a
moved file keeps its old path's, a file that stayed its own, any other one no prior path has;
and over a run of builds from then on a file never moved keeps its token. -/
theorem tokens_follow_moves {prior : OrdMap String String} (distinct : Distinct prior)
    {moves : MoveMap} (once : OneToOne moves) (currentFiles : List String) :
    let out := carryFileTokens prior moves currentFiles
    (∀ f : String, out[f]? ≠ none ↔ f ∈ currentFiles) ∧ Distinct out ∧
    (∀ m ∈ moves.files, m.newPath ∈ currentFiles → ∀ t, prior[m.oldPath]? = some t →
      out[m.newPath]? = some t) ∧
    (∀ f ∈ currentFiles, (∀ m ∈ moves.files, m.newPath ≠ f) →
      (∀ m ∈ moves.files, m.oldPath ≠ f) → ∀ t, prior[f]? = some t → out[f]? = some t) ∧
    (∀ f ∈ currentFiles, ∀ t, out[f]? = some t →
      (∃ source, carriedFrom moves f = some source ∧ prior[source]? = some t) ∨
        ∀ p : String, prior[p]? ≠ some t) ∧
    ∀ (later : List TokenBuild), (∀ b ∈ later, OneToOne b.moves) →
      Distinct (tokensAfter out later) ∧
      ∀ f t, out[f]? = some t → (∀ b ∈ later, b.Stays f) →
        (tokensAfter out later)[f]? = some t := by
  have fine : Distinct (carryFileTokens prior moves currentFiles) := distinct.carry once
  refine ⟨carry_mem, fine, fun m mem there t held => ?_, fun f mem unmoved stays t held => ?_,
    fun f mem t got => ?_, fun later each => ?_⟩
  · exact carry_keeps there (carriedFrom_moved once mem) held
  · exact carry_keeps mem (carriedFrom_unmoved unmoved stays) held
  · by_cases base : freshBase prior moves f = none
    · obtain ⟨u, ok⟩ := freshBase_none base
      have same := (carry_spec prior moves currentFiles).1 f mem u ok
      rw [got] at same
      cases same
      exact .inl (carriedToken_ok.mp ok)
    · obtain ⟨u, same, _, free⟩ := (carry_spec prior moves currentFiles).2.2.1 f mem base
      rw [got] at same
      cases same
      exact .inr free
  · exact ⟨tokensAfter_distinct fine each, fun f t held stays => tokensAfter_keeps held stays⟩

def twoFiles : OrdMap String String :=
  ((∅ : OrdMap String String).insert "a" "a").insert "b" "b"

theorem twoFiles_get (p : String) :
    twoFiles[p]? = if "b" = p then some "b" else if "a" = p then some "a" else none := by
  rw [twoFiles, OrdMap.get_insert, OrdMap.get_insert, Std.ExtTreeMap.getElem?_empty]

theorem twoFiles_distinct : Distinct twoFiles := by
  have own : ∀ {p t : String}, twoFiles[p]? = some t → p = t := by
    intro p t held
    rw [twoFiles_get] at held
    split at held
    · rename_i here
      cases held
      exact here.symm
    · split at held
      · rename_i here
        cases held
        exact here.symm
      · cases held
  intro p q t held held'
  exact (own held).trans (own held').symm

def swapped : MoveMap := ⟨[⟨"a", "b", .identical⟩, ⟨"b", "a", .identical⟩], [], 0⟩

/-- Swapped files swap tokens. -/
theorem swapped_tokens : (carryFileTokens twoFiles swapped ["a", "b"])["b"]? = some "a" :=
  (tokens_follow_moves twoFiles_distinct ⟨by decide, by decide⟩ ["a", "b"]).2.2.1
    ⟨"a", "b", .identical⟩ (by decide) (by decide) "a" (by rw [twoFiles_get]; decide)

def unmoved : MoveMap := ⟨[], [], 0⟩

/-- A file back after a build without it takes its path, once no one holds it. -/
theorem carry_returned {tokens : OrdMap String String} {u : String}
    (held : tokens["c"]? = some u) (others : ∀ p : String, p ≠ "c" → tokens[p]? = none)
    (apart : u ≠ "a") : (carryFileTokens tokens unmoved ["a", "c"])["a"]? = some "a" := by
  have carriedC : carriedToken tokens unmoved "c" = .ok u := by
    simp [carriedToken, movedFrom, vacated, unmoved, held]
  have carriedA : carriedToken tokens unmoved "a" = .error "a" := by
    simp [carriedToken, movedFrom, vacated, unmoved, others "a" (by decide)]
  have files : fileSet ["a", "c"] = ["a", "c"] := by decide
  have free : "a" ∉ ([("c", u)].map Prod.snd ++ tokens.toList.map Prod.snd).toFinset := by
    simp only [List.mem_toFinset, List.mem_append, List.map_cons, List.map_nil,
      List.mem_singleton, List.mem_map, not_or]
    refine ⟨Ne.symm apart, ?_⟩
    rintro ⟨e, mem, token⟩
    have got : tokens[e.1]? = some e.2 := OrdMap.mem_toList.mp mem
    by_cases here : e.1 = "c"
    · rw [here, held] at got
      cases got
      exact apart token
    · rw [others e.1 here] at got
      cases got
  unfold carryFileTokens
  simp only [files, List.filterMap_cons, List.filterMap_nil, freshBase, carriedA, carriedC,
    Except.toOption, Option.map_some, Option.map_none, List.foldl_cons, List.foldl_nil, mint,
    OrdMap.get_insert, if_true]
  rw [freshToken, if_neg free]

def sharedToken : OrdMap String String := (∅ : OrdMap String String).insert "b" "a"

theorem sharedToken_get (p : String) : sharedToken[p]? = if "b" = p then some "a" else none := by
  rw [sharedToken, OrdMap.get_insert, Std.ExtTreeMap.getElem?_empty]

/-- A file a build lacks gets another token when it is back. -/
theorem returned_retokened :
    Distinct sharedToken ∧ OneToOne unmoved ∧
      (tokensAfter (carryFileTokens sharedToken unmoved ["a", "b"])
        [⟨unmoved, ["c"]⟩, ⟨unmoved, ["a", "c"]⟩])["a"]? ≠
        (carryFileTokens sharedToken unmoved ["a", "b"])["a"]? := by
  refine ⟨?_, ⟨by decide, by decide⟩, ?_⟩
  · intro p q t heldP heldQ
    rw [sharedToken_get] at heldP heldQ
    split at heldP
    · split at heldQ
      · simp_all
      · cases heldQ
    · cases heldP
  -- The holder of `a` keeps it, so the file at `a` starts with another token.
  have first : (carryFileTokens sharedToken unmoved ["a", "b"])["b"]? = some "a" :=
    carry_keeps (by decide) (carriedFrom_unmoved (by decide) (by decide))
      (by rw [sharedToken_get]; rfl)
  obtain ⟨t, got, _, free⟩ := (carry_spec sharedToken unmoved ["a", "b"]).2.2.1 "a" (by decide) (by
    simp [freshBase, carriedToken, movedFrom, vacated, unmoved, sharedToken_get])
  have apart : t ≠ "a" := fun same => free "b" (by rw [sharedToken_get, same]; rfl)
  have absent := (carry_spec sharedToken unmoved ["a", "b"]).2.1 "c" (by decide)
  generalize carryFileTokens sharedToken unmoved ["a", "b"] = one at first got absent ⊢
  -- The one file of the second build takes a token no file of the first has.
  obtain ⟨_, outside, fresh, _⟩ := carry_spec one unmoved ["c"]
  obtain ⟨u, held, _, new⟩ := fresh "c" (by decide) (by
    simp [freshBase, carriedToken, movedFrom, vacated, unmoved, absent])
  have back : (tokensAfter one [⟨unmoved, ["c"]⟩, ⟨unmoved, ["a", "c"]⟩])["a"]? = some "a" := by
    refine carry_returned held (fun p ne => outside p (by simpa using ne)) ?_
    rintro rfl
    exact new "b" first
  rw [back, got]
  exact fun same => apart (Option.some_inj.mp same).symm

end Runs

end Glia.Graph
