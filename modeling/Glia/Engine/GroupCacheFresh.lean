import Glia.Engine.GroupCache
import Mathlib.Data.Set.Basic

/-! No update of a watch session uses a build of other inputs than its own. -/
namespace Glia.Engine.Groups

section Bytes

theorem word_length (n : UInt64) : (word n).length = 8 := by simp [word]

theorem eq_of_bytes (k a b : Nat) (la : a < 256 ^ k) (lb : b < 256 ^ k)
    (byte : ∀ i, i < k → a / 256 ^ i % 256 = b / 256 ^ i % 256) : a = b := by
  induction k generalizing a b with
  | zero => omega
  | succ k ih =>
    have low := byte 0 (Nat.succ_pos k)
    have high : a / 256 = b / 256 := by
      apply ih
      · omega
      · omega
      · intro i small
        have next := byte (i + 1) (by omega)
        rwa [Nat.pow_succ', ← Nat.div_div_eq_div_mul, ← Nat.div_div_eq_div_mul] at next
    omega

theorem word_injective : Function.Injective word := by
  intro a b same
  apply UInt64.toNat_inj.mp
  apply eq_of_bytes 8 _ _ a.toNat_lt b.toNat_lt
  intro i small
  have eq := congrArg (fun l => l[i]?) same
  simp only [word, List.getElem?_map, List.getElem?_range small, Option.map_some,
    Option.some.injEq] at eq
  simpa using congrArg UInt8.toNat eq

theorem word_append {a b : UInt64} {s t : List UInt8} (same : word a ++ s = word b ++ t) :
    a = b ∧ s = t := by
  obtain ⟨head, tail⟩ := List.append_inj same (by rw [word_length, word_length])
  exact ⟨word_injective head, tail⟩

theorem flatMap_word_injective : Function.Injective (List.flatMap word) := by
  intro xs ys same
  induction xs generalizing ys with
  | nil =>
    cases ys with
    | nil => rfl
    | cons y ys =>
      have lengths := congrArg List.length same
      simp [word_length] at lengths
      omega
  | cons x xs ih =>
    cases ys with
    | nil =>
      have lengths := congrArg List.length same
      simp [word_length] at lengths
    | cons y ys =>
      obtain ⟨rfl, tail⟩ := word_append same
      rw [ih tail]

theorem contextBytes_inj {key : String} {repo overlay services hidden repo' overlay' services'
    hidden' : UInt64}
    (same : contextBytes key repo overlay services hidden =
      contextBytes key repo' overlay' services' hidden') :
    repo = repo' ∧ overlay = overlay' ∧ services = services' ∧ hidden = hidden' := by
  obtain ⟨one, same⟩ := word_append (List.append_cancel_left same)
  obtain ⟨two, same⟩ := word_append same
  obtain ⟨three, same⟩ := word_append same
  exact ⟨one, two, three, word_injective same⟩

theorem wholeBytes_inj {key : String} {repo services hidden repo' services' hidden' : UInt64}
    {fps fps' : List UInt64}
    (same : wholeBytes key repo services hidden fps =
      wholeBytes key repo' services' hidden' fps') :
    repo = repo' ∧ services = services' ∧ hidden = hidden' ∧ fps = fps' := by
  obtain ⟨one, same⟩ := word_append (List.append_cancel_left same)
  obtain ⟨two, same⟩ := word_append same
  obtain ⟨three, same⟩ := word_append same
  obtain ⟨-, same⟩ := word_append same
  exact ⟨one, two, three, flatMap_word_injective same⟩

end Bytes

variable {n : Nat} {Parse Overlay Services Input Surface Graph : Type}
  (H : Hashing Parse Overlay Services Input) (B : Builders Parse Services Input Graph)

section Inputs

def Inputs.hiddenFp (i : Inputs Parse Overlay Services Input) : UInt64 := Groups.hiddenFp H i.hidden

def Inputs.context (i : Inputs Parse Overlay Services Input) : List UInt8 :=
  contextBytes i.key i.repo (H.overlay i.overlay) (H.services i.services) (i.hiddenFp H)

def Inputs.whole (i : Inputs Parse Overlay Services Input) : Option (List UInt8) :=
  (i.parses.mapM H.parse).map (wholeBytes i.key i.repo (H.services i.services) (i.hiddenFp H))

structure NoCollision (surfaceOf : Parse → Surface)
    (occ : Set (Inputs Parse Overlay Services Input)) : Prop where
  parse : ∀ i ∈ occ, ∀ j ∈ occ, ∀ p ∈ i.parses, ∀ q ∈ j.parses, ∀ f,
    H.parse p = some f → H.parse q = some f → p = q
  surface : ∀ i ∈ occ, ∀ j ∈ occ, ∀ p ∈ i.parses, ∀ q ∈ j.parses, ∀ f,
    H.surface p = some f → H.surface q = some f → surfaceOf p = surfaceOf q
  overlay : ∀ i ∈ occ, ∀ j ∈ occ, H.overlay i.overlay = H.overlay j.overlay →
    i.overlay = j.overlay
  services : ∀ i ∈ occ, ∀ j ∈ occ, H.services i.services = H.services j.services →
    i.services = j.services
  hidden : ∀ i ∈ occ, ∀ j ∈ occ, ∀ x ∈ i.hidden, ∀ y ∈ j.hidden, H.hidden x = H.hidden y → x = y
  context : ∀ i ∈ occ, ∀ j ∈ occ, H.xxh64 (i.context H) = H.xxh64 (j.context H) →
    i.context H = j.context H
  whole : ∀ i ∈ occ, ∀ j ∈ occ, ∀ x ∈ i.whole H, ∀ y ∈ j.whole H, H.xxh64 x = H.xxh64 y → x = y

inductive BodyEdits (path : Parse → Option String) (surfaceOf : Parse → Surface) :
    List Parse → List Parse → List Parse → Prop
  | nil : BodyEdits path surfaceOf [] [] []
  | same (p : Parse) {ps qs edits : List Parse} (h : BodyEdits path surfaceOf ps qs edits) :
      BodyEdits path surfaceOf (p :: ps) (p :: qs) edits
  | moved {p q : Parse} {ps qs edits : List Parse} (apart : p ≠ q) (file : path p = path q)
      (surface : surfaceOf p = surfaceOf q) (h : BodyEdits path surfaceOf ps qs edits) :
      BodyEdits path surfaceOf (p :: ps) (q :: qs) (q :: edits)

def RestitchExact (path : Parse → Option String) (surfaceOf : Parse → Surface)
    (occ : Set (Inputs Parse Overlay Services Input)) : Prop :=
  ∀ i ∈ occ, ∀ at_ : RepoInputs Parse Overlay Input, ∀ services : Services,
    ∀ g : GroupInput Parse, ∀ edits built restitched,
    at_.inputsOf services g ∈ occ → fastPathFor g.key = true →
    i.key = g.key → i.repo = at_.ctx.repo → i.overlay = at_.overlay → i.services = services →
    i.hidden = hidden g.key at_.ctx → BodyEdits path surfaceOf i.parses g.parses edits →
    B.build i.toBuild = .ok built → B.restitch g.key built edits g.parses at_.ctx = some restitched →
    B.build (at_.inputsOf services g).toBuild = .ok restitched

end Inputs

section Prints
variable {occ : Set (Inputs Parse Overlay Services Input)} {surfaceOf : Parse → Surface}

structure FileOf (p : Parse) (f : FileFp) : Prop where
  path : H.parsePath p = some f.path
  parse : H.parse p = some f.parse
  surface : H.surface p = some f.surface

structure HoldsFor (i : Inputs Parse Overlay Services Input) (c : CachedGroup Graph) : Prop where
  key : c.key = i.key
  fingerprint : (i.whole H).map H.xxh64 = some c.fingerprint
  context : H.xxh64 (i.context H) = c.context
  files : ∀ fs, c.files = some fs → List.Forall₂ (FileOf H) i.parses fs
  build : c.build = B.buildOf i

/-- An entry holds the build of some inputs of the run. -/
def Holds (occ : Set (Inputs Parse Overlay Services Input)) (c : CachedGroup Graph) : Prop :=
  ∃ i ∈ occ, HoldsFor H B i c

variable {H B}

theorem hidden_isSome (key : String) (ctx ctx' : GroupCtx Input) :
    (hidden key ctx).isSome = (hidden key ctx').isSome := by
  unfold hidden
  split_ifs <;> rfl

def Planned (occ : Set (Inputs Parse Overlay Services Input)) : Prop :=
  ∀ i ∈ occ, ∃ ctx, i.hidden = hidden i.key ctx

theorem NoCollision.hidden_eq (clean : NoCollision H surfaceOf occ) (planned : Planned occ)
    {i j : Inputs Parse Overlay Services Input} (hi : i ∈ occ) (hj : j ∈ occ)
    (key : i.key = j.key) (same : i.hiddenFp H = j.hiddenFp H) : i.hidden = j.hidden := by
  obtain ⟨ctx, left⟩ := planned i hi
  obtain ⟨ctx', right⟩ := planned j hj
  have shape := hidden_isSome i.key ctx ctx'
  rw [← left, key, ← right] at shape
  cases x : i.hidden with
  | none =>
    rw [x, Option.isSome_none] at shape
    exact (Option.not_isSome_iff_eq_none.mp (by simp [← shape])).symm
  | some a =>
    rw [x, Option.isSome_some] at shape
    obtain ⟨b, y⟩ := Option.isSome_iff_exists.mp shape.symm
    simp only [Inputs.hiddenFp, Groups.hiddenFp, x, y, Option.map_some, Option.getD_some] at same
    rw [y, clean.hidden i hi j hj a x b y same]

theorem parses_eq {ps qs : List Parse} {fps : List UInt64}
    (inj : ∀ p ∈ ps, ∀ q ∈ qs, ∀ f, H.parse p = some f → H.parse q = some f → p = q)
    (left : ps.mapM H.parse = some fps) (right : qs.mapM H.parse = some fps) : ps = qs := by
  induction ps generalizing qs fps with
  | nil =>
    cases left
    cases qs with
    | nil => rfl
    | cons q qs => simp [List.mapM_cons, Option.bind_eq_some_iff] at right
  | cons p ps ih =>
    simp only [List.mapM_cons, Option.bind_eq_bind, Option.bind_eq_some_iff, Option.pure_def,
      Option.some.injEq] at left
    obtain ⟨f, head, fps, tail, rfl⟩ := left
    cases qs with
    | nil => cases right
    | cons q qs =>
      simp only [List.mapM_cons, Option.bind_eq_bind, Option.bind_eq_some_iff, Option.pure_def,
        Option.some.injEq, List.cons.injEq] at right
      obtain ⟨f', head', fps', tail', rfl, rfl⟩ := right
      rw [inj p List.mem_cons_self q List.mem_cons_self f' head head',
        ih (fun p hp q hq => inj p (List.mem_cons_of_mem _ hp) q (List.mem_cons_of_mem _ hq))
          tail tail']

theorem NoCollision.build_eq (clean : NoCollision H surfaceOf occ) (planned : Planned occ)
    {i j : Inputs Parse Overlay Services Input} (hi : i ∈ occ) (hj : j ∈ occ)
    (key : i.key = j.key) {fp : UInt64} (left : (i.whole H).map H.xxh64 = some fp)
    (right : (j.whole H).map H.xxh64 = some fp) : i.toBuild = j.toBuild := by
  obtain ⟨x, hx, xfp⟩ := Option.map_eq_some_iff.mp left
  obtain ⟨y, hy, yfp⟩ := Option.map_eq_some_iff.mp right
  have same := clean.whole i hi j hj x hx y hy (xfp.trans yfp.symm)
  subst same
  obtain ⟨fps, parsed, made⟩ := Option.map_eq_some_iff.mp hx
  obtain ⟨fps', parsed', made'⟩ := Option.map_eq_some_iff.mp hy
  rw [← made', key] at made
  obtain ⟨repo, services, hidden, rfl⟩ := wholeBytes_inj made
  rw [Inputs.toBuild, Inputs.toBuild, key, repo, clean.services i hi j hj services,
    clean.hidden_eq planned hi hj key hidden,
    parses_eq (clean.parse i hi j hj) parsed parsed']

theorem NoCollision.context_eq (clean : NoCollision H surfaceOf occ) (planned : Planned occ)
    {i j : Inputs Parse Overlay Services Input} (hi : i ∈ occ) (hj : j ∈ occ)
    (key : i.key = j.key) (same : H.xxh64 (i.context H) = H.xxh64 (j.context H)) :
    i.repo = j.repo ∧ i.overlay = j.overlay ∧ i.services = j.services ∧ i.hidden = j.hidden := by
  have bytes := clean.context i hi j hj same
  rw [Inputs.context, Inputs.context, key] at bytes
  obtain ⟨repo, overlay, services, hidden⟩ := contextBytes_inj bytes
  exact ⟨repo, clean.overlay i hi j hj overlay, clean.services i hi j hj services,
    clean.hidden_eq planned hi hj key hidden⟩

theorem surfaceAt_eq (clean : NoCollision H surfaceOf occ) {i j : Inputs Parse Overlay Services Input}
    (hi : i ∈ occ) (hj : j ∈ occ) {old : Option (List FileFp)}
    (held : ∀ fs, old = some fs → List.Forall₂ (FileOf H) j.parses fs) {slot : Nat} {path : String}
    {parse : UInt64} {p : Parse} (hp : p ∈ i.parses) (print : H.parse p = some parse) :
    surfaceAt H old slot path parse p = H.surface p := by
  unfold surfaceAt
  cases found : old.bind (·[slot]?) with
  | none => rfl
  | some o =>
    dsimp only
    split_ifs with same
    · obtain ⟨fs, rfl, at_⟩ := Option.bind_eq_some_iff.mp found
      have both := held fs rfl
      obtain ⟨q, hq, of⟩ : ∃ q ∈ j.parses, FileOf H q o := by
        obtain ⟨inside, rfl⟩ := List.getElem?_eq_some_iff.mp at_
        have inside' : slot < j.parses.length := by rw [both.length_eq]; exact inside
        exact ⟨j.parses[slot], List.getElem_mem _, both.get inside' inside⟩
      rw [clean.parse i hi j hj p hp q hq parse print (same.2 ▸ of.parse), of.surface]
    · rfl

theorem fileFps_sound (clean : NoCollision H surfaceOf occ)
    {i j : Inputs Parse Overlay Services Input} (hi : i ∈ occ) (hj : j ∈ occ)
    {old : Option (List FileFp)}
    (held : ∀ fs, old = some fs → List.Forall₂ (FileOf H) j.parses fs) {ps : List Parse}
    (within : ∀ p ∈ ps, p ∈ i.parses) {slot : Nat} {seen : List String} {fs : List FileFp}
    (made : fileFps H old slot seen ps = some fs) : List.Forall₂ (FileOf H) ps fs := by
  induction ps generalizing slot seen fs with
  | nil =>
    cases made
    exact .nil
  | cons p ps ih =>
    simp only [fileFps, Option.bind_eq_some_iff, Option.ite_none_left_eq_some,
      Option.map_eq_some_iff] at made
    obtain ⟨path, file, parse, print, -, surface, at_, fs, rest, rfl⟩ := made
    have hp := within p List.mem_cons_self
    rw [surfaceAt_eq clean hi hj held hp print] at at_
    exact .cons ⟨file, print, at_⟩ (ih (fun q hq => within q (List.mem_cons_of_mem _ hq)) rest)

end Prints

section Stage
variable {occ : Set (Inputs Parse Overlay Services Input)} {surfaceOf : Parse → Surface}
  {at_ : RepoInputs Parse Overlay Input} {services : Services} {fastPath : Bool}
  {cached : List (CachedGroup Graph)} {g : GroupInput Parse}

theorem groupPrint_fingerprint :
    (groupPrint H at_ services fastPath cached g).fingerprint =
      ((at_.inputsOf services g).whole H).map H.xxh64 := by
  rw [groupPrint, Inputs.whole, Option.map_map]
  rfl

variable {H B}

theorem groupPrint_files (clean : NoCollision H surfaceOf occ)
    (mem : at_.inputsOf services g ∈ occ) (held : ∀ c ∈ cached, Holds H B occ c)
    {fs : List FileFp} (made : (groupPrint H at_ services fastPath cached g).files = some fs) :
    List.Forall₂ (FileOf H) g.parses fs := by
  rw [groupPrint, Option.ite_none_right_eq_some] at made
  cases entry : cached.find? fun c => c.key = g.key with
  | none =>
    rw [entry] at made
    exact fileFps_sound clean mem mem (by simp) (fun _ h => h) made.2
  | some c =>
    rw [entry] at made
    obtain ⟨j, hj, holds⟩ := held c (List.mem_of_find?_eq_some entry)
    exact fileFps_sound clean mem hj holds.files (fun _ h => h) made.2

theorem reuseSlot_build (clean : NoCollision H surfaceOf occ) (planned : Planned occ)
    (mem : at_.inputsOf services g ∈ occ) (held : ∀ c ∈ cached, Holds H B occ c)
    {c : CachedGroup Graph} {i : Nat}
    (hit : reuseSlot g.key (groupPrint H at_ services fastPath cached g) cached = some (c, i)) :
    cached[i]? = some c ∧ c.build = B.buildOf (at_.inputsOf services g) := by
  rw [reuseSlot, groupPrint_fingerprint] at hit
  obtain ⟨fp, whole, found⟩ := Option.bind_eq_some_iff.mp hit
  obtain ⟨last, same⟩ := Option.filter_eq_some_iff.mp found
  obtain ⟨listed, key⟩ := List.mem_filter.mp (List.mem_of_getLast? last)
  have at_i := List.mem_zipIdx_iff_getElem?.mp listed
  obtain ⟨j, hj, holds⟩ := held c (List.mem_of_getElem? at_i)
  have key' : j.key = g.key := holds.key.symm.trans (of_decide_eq_true key)
  have fps : c.fingerprint = fp := of_decide_eq_true same
  have build := clean.build_eq planned hj mem key' (fps ▸ holds.fingerprint) whole
  refine ⟨at_i, ?_⟩
  rw [holds.build, Builders.buildOf, Builders.buildOf, build, key']
  rfl

theorem editedSlots_edits (clean : NoCollision H surfaceOf occ)
    {i j : Inputs Parse Overlay Services Input} (hi : i ∈ occ) (hj : j ∈ occ)
    {old new : List FileFp} {ps qs : List Parse} (olds : List.Forall₂ (FileOf H) ps old)
    (news : List.Forall₂ (FileOf H) qs new) (left : ∀ p ∈ ps, p ∈ i.parses)
    (right : ∀ q ∈ qs, q ∈ j.parses) (aligned : old.length = new.length) {slot : Nat}
    (at_ : j.parses.drop slot = qs) {edited : List Nat}
    (made : editedSlots slot old new = some edited) :
    BodyEdits H.parsePath surfaceOf ps qs (edited.filterMap (j.parses[·]?)) := by
  induction olds generalizing new qs slot edited with
  | nil =>
    obtain rfl : new = [] := List.length_eq_zero_iff.mp aligned.symm
    cases news
    cases made
    exact .nil
  | @cons p o ps old ofP _ ih =>
    cases news with
    | nil => cases aligned
    | @cons q n qs new ofQ news =>
      rw [editedSlots, Option.ite_none_left_eq_some, Option.map_eq_some_iff] at made
      obtain ⟨kept, rest, tail, rfl⟩ := made
      have next : j.parses.drop (slot + 1) = qs := by
        rw [← List.drop_drop, at_]
        rfl
      have here : j.parses[slot]? = some q := by
        rw [← List.head?_drop, at_]
        rfl
      have edits := ih news (fun p hp => left p (List.mem_cons_of_mem _ hp))
        (fun q hq => right q (List.mem_cons_of_mem _ hq)) (Nat.succ.inj aligned) next tail
      have hp := left p List.mem_cons_self
      have hq := right q List.mem_cons_self
      simp only [not_or, ne_eq, not_not] at kept
      by_cases parse : o.parse = n.parse
      · rw [if_neg (not_not.mpr parse)]
        obtain rfl : p = q := clean.parse i hi j hj p hp q hq _ ofP.parse (parse ▸ ofQ.parse)
        exact .same p edits
      · rw [if_pos parse, List.filterMap_cons_some here]
        apply BodyEdits.moved _ _ _ edits
        · rintro rfl
          exact parse (Option.some.inj (ofP.parse.symm.trans ofQ.parse))
        · rw [ofP.path, ofQ.path, kept.1]
        · exact clean.surface i hi j hj p hp q hq _ ofP.surface (kept.2 ▸ ofQ.surface)

/-- A re-stitch from a session's seed is the group's build. -/
theorem rebody_build (clean : NoCollision H surfaceOf occ) (planned : Planned occ)
    (exact_ : RestitchExact B H.parsePath surfaceOf occ)
    (mem : at_.inputsOf services g ∈ occ) (held : ∀ c ∈ cached, Holds H B occ c)
    {build b : LangBuild Graph} {edited : List Nat}
    (seeded : rebodySeed g.key (groupPrint H at_ services fastPath cached g) cached =
      some (.rebody build edited))
    (made : rebodyGroup B build (edited.filterMap fun slot => g.parses[slot]?) g.parses at_.ctx =
      some b) : b = B.buildOf (at_.inputsOf services g) := by
  rw [rebodySeed, Option.ite_none_left_eq_some] at seeded
  obtain ⟨-, seeded⟩ := seeded
  simp only [Option.bind_eq_some_iff, Option.ite_none_left_eq_some, Option.some.injEq,
    Seed.rebody.injEq] at seeded
  obtain ⟨entry, found, old, oldFiles, new, newFiles, apart, slots, edits, -, rfl, rfl⟩ := seeded
  simp only [not_or, ne_eq, not_not] at apart
  obtain ⟨j, hj, holds⟩ := held entry (List.mem_of_find?_eq_some found)
  have named : entry.key = g.key := by simpa using List.find?_some found
  have key : j.key = g.key := holds.key.symm.trans named
  obtain ⟨repo, overlay, services_, hidden_⟩ :=
    clean.context_eq planned hj mem key (holds.context.trans apart.1)
  have body := editedSlots_edits clean hj mem (holds.files old oldFiles)
    (groupPrint_files clean mem held newFiles) (fun _ h => h) (fun _ h => h) apart.2 rfl edits
  rw [rebodyGroup, Option.ite_none_left_eq_some, holds.build, Builders.buildOf] at made
  obtain ⟨fast, made⟩ := made
  cases built : B.build j.toBuild with
  | error e =>
    rw [built] at made
    cases made
  | ok graph =>
    rw [built] at made
    obtain ⟨graph', stitched, rfl⟩ := Option.map_eq_some_iff.mp made
    simp only [key, Bool.not_eq_true, Bool.or_eq_false_iff, Bool.not_eq_false'] at fast stitched
    have whole := exact_ j hj at_ services g _ graph graph' mem fast.1 key repo overlay services_
      hidden_ body built stitched
    rw [Builders.buildOf, whole, key]
    rfl

theorem stageGroup_build (clean : NoCollision H surfaceOf occ) (planned : Planned occ)
    (exact_ : RestitchExact B H.parsePath surfaceOf occ)
    (mem : at_.inputsOf services g ∈ occ) (held : ∀ c ∈ cached, Holds H B occ c) :
    (stageGroup H B at_ services fastPath cached g).build =
      B.buildOf (at_.inputsOf services g) := by
  rw [stageGroup]
  dsimp only
  cases hit : reuseSlot g.key (groupPrint H at_ services fastPath cached g) cached with
  | some c =>
    obtain ⟨-, build⟩ := reuseSlot_build clean planned mem held hit
    simp only [buildSeeded, Option.filter_some, Seed.build, build]
    split_ifs <;> rfl
  | none =>
    simp only
    cases fast : fastPath with
    | false => rfl
    | true =>
      rw [if_pos rfl]
      cases seeded : rebodySeed g.key (groupPrint H at_ services true cached g) cached with
      | none => rfl
      | some seed =>
        cases seed with
        | reuse b => simp [rebodySeed, Option.bind_eq_some_iff] at seeded
        | rebody build edited =>
          simp only [buildSeeded, Option.filter_some]
          split_ifs with key
          · dsimp only
            split_ifs with short
            · rfl
            · cases made : rebodyGroup B build (edited.filterMap fun slot => g.parses[slot]?)
                g.parses at_.ctx with
              | none => rfl
              | some b => exact rebody_build clean planned exact_ mem held seeded made
          · rfl

theorem stageGroup_slot (clean : NoCollision H surfaceOf occ) (planned : Planned occ)
    (exact_ : RestitchExact B H.parsePath surfaceOf occ)
    (mem : at_.inputsOf services g ∈ occ) (held : ∀ c ∈ cached, Holds H B occ c)
    {c : CachedGroup Graph}
    (slot : (stageGroup H B at_ services fastPath cached g).slot = some (.fresh c)) :
    Holds H B occ c := by
  have build : (stageGroup H B at_ services fastPath cached g).build =
      B.buildOf (at_.inputsOf services g) := stageGroup_build clean planned exact_ mem held
  rw [Stage.slot] at slot
  split at slot
  · cases slot
  · obtain ⟨fp, print, made⟩ := Option.map_eq_some_iff.mp slot
    obtain rfl := Slot.fresh.inj made
    refine ⟨_, mem, ?_, ?_, rfl, ?_, build⟩
    · exact congrArg LangBuild.key build
    · have whole : (groupPrint H at_ services fastPath cached g).fingerprint =
          ((at_.inputsOf services g).whole H).map H.xxh64 := groupPrint_fingerprint H
      rw [← whole]
      exact print
    · intro fs files
      exact groupPrint_files clean mem held files

end Stage

section Session
variable {occ : Set (Inputs Parse Overlay Services Input)} {surfaceOf : Parse → Surface}

theorem mem_takeSlots {old : List (Option (CachedGroup Graph))} {slots : List (Slot Graph)}
    {c : CachedGroup Graph} (mem : c ∈ takeSlots old slots) :
    some c ∈ old ∨ .fresh c ∈ slots := by
  induction slots generalizing old with
  | nil => cases mem
  | cons slot slots ih =>
    cases slot with
    | kept i =>
      rcases List.mem_append.mp mem with here | later
      · left
        obtain ⟨o, found, rfl⟩ : ∃ o, old[i]? = some o ∧ o = some c := by
          simpa [Option.join_eq_some_iff] using here
        exact List.mem_of_getElem? found
      · rcases ih later with kept | fresh
        · left
          rcases List.mem_or_eq_of_mem_set kept with kept | gone
          · exact kept
          · cases gone
        · exact .inr (List.mem_cons_of_mem _ fresh)
    | fresh g =>
      rcases List.mem_cons.mp mem with rfl | later
      · exact .inr List.mem_cons_self
      · rcases ih later with kept | fresh
        · exact .inl kept
        · exact .inr (List.mem_cons_of_mem _ fresh)

theorem Holds.used {c : CachedGroup Graph} (h : Holds H B occ c) (seq : Nat) :
    Holds H B occ { c with lastUsed := seq } := by
  obtain ⟨i, mem, key, fingerprint, context, files, build⟩ := h
  exact ⟨i, mem, key, fingerprint, context, files, build⟩

/-- Every entry of every repo's cache holds the build of inputs of the run. -/
def WatchSession.Fresh (occ : Set (Inputs Parse Overlay Services Input))
    (s : WatchSession n Graph) : Prop := ∀ r, ∀ c ∈ s.groups r, Holds H B occ c

variable {H B} {u : Update n Parse Overlay Services Input}

theorem refreshGroups_holds (clean : NoCollision H surfaceOf occ) (planned : Planned occ)
    (exact_ : RestitchExact B H.parsePath surfaceOf occ) {r : Fin n}
    (within : ∀ i ∈ u.inputs r, i ∈ occ) {cached : List (CachedGroup Graph)}
    (held : ∀ c ∈ cached, Holds H B occ c) (seq : Nat) :
    ∀ c ∈ refreshGroups cached ((buildRepo H B u r cached).filterMap Stage.slot) seq,
      Holds H B occ c := by
  intro c mem
  obtain ⟨c, taken, rfl⟩ := List.mem_map.mp mem
  apply Holds.used
  rcases mem_takeSlots taken with kept | fresh
  · exact held c (by simpa using kept)
  · obtain ⟨stage, made, slot⟩ := List.mem_filterMap.mp fresh
    obtain ⟨g, mem, rfl⟩ := List.mem_map.mp made
    exact stageGroup_slot clean planned exact_ (within _ (List.mem_map_of_mem mem)) held slot

theorem usedBuilds_eq (clean : NoCollision H surfaceOf occ) (planned : Planned occ)
    (exact_ : RestitchExact B H.parsePath surfaceOf occ) {r : Fin n}
    (within : ∀ i ∈ u.inputs r, i ∈ occ) {cached : Fin n → List (CachedGroup Graph)}
    (held : ∀ c ∈ cached r, Holds H B occ c) :
    usedBuilds H B cached u r = (u.inputs r).map B.buildOf := by
  rw [usedBuilds, buildRepo, Update.inputs, List.map_map, List.map_map]
  apply List.map_congr_left
  intro g mem
  exact stageGroup_build clean planned exact_ (within _ (List.mem_map_of_mem mem)) held

theorem WatchSession.Fresh.evict {s : WatchSession n Graph} (h : s.Fresh H B occ) (r : Fin n)
    (i : Nat) : (s.evict r i).Fresh H B occ := by
  intro r' c mem
  simp only [WatchSession.evict] at mem
  split_ifs at mem with here
  · exact h r c (List.mem_of_mem_eraseIdx mem)
  · exact h r' c mem

theorem WatchSession.Fresh.enforceBudget {s : WatchSession n Graph} (h : s.Fresh H B occ)
    (readings : List Bool) : (s.enforceBudget readings).Fresh H B occ := by
  induction readings generalizing s with
  | nil => exact h
  | cons reading readings ih =>
    cases reading with
    | false => exact h
    | true =>
      rw [WatchSession.enforceBudget]
      split
      · exact ih (h.evict _ _)
      · exact h

def updates (events : List (Event n Parse Overlay Services Input)) :
    List (Update n Parse Overlay Services Input) :=
  events.filterMap fun
    | .update u => some u
    | _ => none

def inputsIn (us : List (Update n Parse Overlay Services Input)) :
    Set (Inputs Parse Overlay Services Input) := { i | ∃ u ∈ us, ∃ r, i ∈ u.inputs r }

theorem planned_inputsIn (us : List (Update n Parse Overlay Services Input)) :
    Planned (inputsIn us) := by
  rintro i ⟨u, -, r, mem⟩
  obtain ⟨g, -, rfl⟩ := List.mem_map.mp mem
  exact ⟨_, rfl⟩

theorem WatchSession.Fresh.run (clean : NoCollision H surfaceOf occ) (planned : Planned occ)
    (exact_ : RestitchExact B H.parsePath surfaceOf occ)
    {events : List (Event n Parse Overlay Services Input)}
    (within : inputsIn (updates events) ⊆ occ) {s : WatchSession n Graph} (h : s.Fresh H B occ) :
    (s.run H B events).1.Fresh H B occ ∧
      (s.run H B events).2 = (updates events).map fun u =>
        (u, fun r => (u.inputs r).map B.buildOf) := by
  induction events generalizing s with
  | nil => exact ⟨h, rfl⟩
  | cons event events ih =>
    cases event with
    | update u =>
      have own : ∀ r, ∀ i ∈ u.inputs r, i ∈ occ :=
        fun r i mem => within ⟨u, List.mem_cons_self, r, mem⟩
      have rest : inputsIn (updates events) ⊆ occ := by
        rintro i ⟨u', mem, r, at_⟩
        exact within ⟨u', List.mem_cons_of_mem _ mem, r, at_⟩
      have next : (s.apply H B u).Fresh H B occ := fun r =>
        refreshGroups_holds clean planned exact_ (own r) (h r) _
      obtain ⟨fresh, used⟩ := ih rest next
      refine ⟨fresh, ?_⟩
      have builds : usedBuilds H B s.groups u = fun r => (u.inputs r).map B.buildOf :=
        funext fun r => usedBuilds_eq clean planned exact_ (own r) (h r)
      rw [WatchSession.run, used, builds]
      rfl
    | evict r i => exact ih within (h.evict r i)
    | budget readings => exact ih within (h.enforceBudget readings)

end Session

/-- However updates, evictions and budget readings follow an open, every update uses the builds
of its own inputs, and every entry left holds the build its prints are of. -/
theorem groups_never_stale (surfaceOf : Parse → Surface)
    (first : Update n Parse Overlay Services Input)
    (events : List (Event n Parse Overlay Services Input))
    (clean : NoCollision H surfaceOf (inputsIn (first :: updates events)))
    (exact_ : RestitchExact B H.parsePath surfaceOf (inputsIn (first :: updates events))) :
    (∀ r, usedBuilds H B (fun _ => []) first r = (first.inputs r).map B.buildOf) ∧
    ((openSession H B first).run H B events).2 =
      (updates events).map (fun u => (u, fun r => (u.inputs r).map B.buildOf)) ∧
    ∀ r, ∀ c ∈ ((openSession H B first).run H B events).1.groups r,
      Holds H B (inputsIn (first :: updates events)) c := by
  have planned := planned_inputsIn (first :: updates events)
  have own : ∀ r, ∀ i ∈ first.inputs r, i ∈ inputsIn (first :: updates events) :=
    fun r i mem => ⟨first, List.mem_cons_self, r, mem⟩
  have nothing : ∀ c ∈ ([] : List (CachedGroup Graph)),
      Holds H B (inputsIn (first :: updates events)) c := by simp
  have opened : (openSession H B first).Fresh H B (inputsIn (first :: updates events)) :=
    fun r => refreshGroups_holds clean planned exact_ (own r) nothing 0
  have later : inputsIn (updates events) ⊆ inputsIn (first :: updates events) := by
    rintro i ⟨u, mem, at_⟩
    exact ⟨u, List.mem_cons_of_mem _ mem, at_⟩
  obtain ⟨fresh, used⟩ := opened.run clean planned exact_ later
  exact ⟨fun r => usedBuilds_eq clean planned exact_ (own r) nothing, used, fresh⟩

section Sample

structure SourceFile where
  path : String
  surface : UInt64
  body : UInt64
  deriving DecidableEq

def fnv (bytes : List UInt8) : UInt64 :=
  bytes.foldl (fun h b => (h ^^^ b.toUInt64) * 0x100000001b3) 0xcbf29ce484222325

def sampleHashing : Hashing SourceFile UInt64 UInt64 UInt64 where
  xxh64 := fnv
  parsePath p := some p.path
  parse p := some (fnv (word p.surface ++ word p.body))
  surface p := some (fnv (word p.surface))
  overlay x := fnv (word x)
  services x := fnv (word x)
  hidden x := fnv (word x)

def sampleBuilders : Builders SourceFile UInt64 UInt64 (List SourceFile) where
  build i := .ok i.parses
  restitch _ _ _ group _ := some group

def sampleUpdate (overlay : UInt64) (files : List SourceFile) :
    Update 1 SourceFile UInt64 UInt64 UInt64 where
  services := 3
  fastPath := true
  repos _ := ⟨⟨7, 1, 1, 1, 1, 1⟩, overlay, [⟨"python", files⟩]⟩

/-- An open, a body edit, an overlay edit and the way back. -/
def sampleUpdates : List (Update 1 SourceFile UInt64 UInt64 UInt64) :=
  [sampleUpdate 0 [⟨"a.py", 1, 1⟩, ⟨"b.py", 2, 1⟩], sampleUpdate 0 [⟨"a.py", 1, 1⟩, ⟨"b.py", 2, 2⟩],
    sampleUpdate 5 [⟨"a.py", 1, 1⟩, ⟨"b.py", 2, 2⟩], sampleUpdate 0 [⟨"a.py", 1, 1⟩, ⟨"b.py", 2, 1⟩]]

def sampleInputs : List (Inputs SourceFile UInt64 UInt64 UInt64) :=
  sampleUpdates.flatMap fun u => u.inputs 0

theorem mem_sampleInputs {i : Inputs SourceFile UInt64 UInt64 UInt64}
    (h : i ∈ inputsIn sampleUpdates) : i ∈ sampleInputs := by
  obtain ⟨u, mem, r, at_⟩ := h
  obtain rfl : r = 0 := Subsingleton.elim r 0
  exact List.mem_flatMap.mpr ⟨u, mem, at_⟩

theorem sample_clean :
    NoCollision sampleHashing SourceFile.surface (inputsIn sampleUpdates) where
  parse := by
    intro i hi j hj p hp q hq f left right
    have apart : ∀ i ∈ sampleInputs, ∀ j ∈ sampleInputs, ∀ p ∈ i.parses, ∀ q ∈ j.parses,
      sampleHashing.parse p = sampleHashing.parse q → p = q := by decide +kernel
    exact apart i (mem_sampleInputs hi) j (mem_sampleInputs hj) p hp q hq (left.trans right.symm)
  surface := by
    intro i hi j hj p hp q hq f left right
    have apart : ∀ i ∈ sampleInputs, ∀ j ∈ sampleInputs, ∀ p ∈ i.parses, ∀ q ∈ j.parses,
      sampleHashing.surface p = sampleHashing.surface q → p.surface = q.surface := by
      decide +kernel
    exact apart i (mem_sampleInputs hi) j (mem_sampleInputs hj) p hp q hq (left.trans right.symm)
  overlay := by
    intro i hi j hj
    have apart : ∀ i ∈ sampleInputs, ∀ j ∈ sampleInputs,
      sampleHashing.overlay i.overlay = sampleHashing.overlay j.overlay →
        i.overlay = j.overlay := by decide +kernel
    exact apart i (mem_sampleInputs hi) j (mem_sampleInputs hj)
  services := by
    intro i hi j hj
    have apart : ∀ i ∈ sampleInputs, ∀ j ∈ sampleInputs, i.services = j.services := by
      decide +kernel
    intro _
    exact apart i (mem_sampleInputs hi) j (mem_sampleInputs hj)
  hidden := by
    intro i hi j hj x left y right
    have none_ : ∀ i ∈ sampleInputs, i.hidden = none := by decide +kernel
    rw [none_ i (mem_sampleInputs hi)] at left
    cases left
  context := by
    intro i hi j hj
    have apart : ∀ i ∈ sampleInputs, ∀ j ∈ sampleInputs,
      fnv (i.context sampleHashing) = fnv (j.context sampleHashing) →
        i.context sampleHashing = j.context sampleHashing := by decide +kernel
    exact apart i (mem_sampleInputs hi) j (mem_sampleInputs hj)
  whole := by
    intro i hi j hj x left y right
    have apart : ∀ i ∈ sampleInputs, ∀ j ∈ sampleInputs,
      (i.whole sampleHashing).map fnv = (j.whole sampleHashing).map fnv →
        i.whole sampleHashing = j.whole sampleHashing := by decide +kernel
    intro same
    have both := apart i (mem_sampleInputs hi) j (mem_sampleInputs hj)
    rw [Option.mem_def.mp left, Option.mem_def.mp right] at both
    exact Option.some.inj (both (congrArg some same))

theorem sample_restitch :
    RestitchExact sampleBuilders sampleHashing.parsePath SourceFile.surface
      (inputsIn sampleUpdates) := by
  intro i _ at_ services g edits built restitched _ _ _ _ _ _ _ _ _ stitched
  cases stitched
  rfl

end Sample

/-- Through a body edit, an overlay edit and the way back, each build is of the files of its
update. -/
theorem groups_never_stale_sample :
    ((openSession sampleHashing sampleBuilders (sampleUpdate 0 [⟨"a.py", 1, 1⟩, ⟨"b.py", 2, 1⟩])).run
        sampleHashing sampleBuilders
        (sampleUpdates.tail.map Event.update)).2.map (fun used => (used.2 0).map LangBuild.graph) =
      [[.ok [⟨"a.py", 1, 1⟩, ⟨"b.py", 2, 2⟩]], [.ok [⟨"a.py", 1, 1⟩, ⟨"b.py", 2, 2⟩]],
        [.ok [⟨"a.py", 1, 1⟩, ⟨"b.py", 2, 1⟩]]] := by
  rw [(groups_never_stale sampleHashing sampleBuilders SourceFile.surface
    (sampleUpdate 0 [⟨"a.py", 1, 1⟩, ⟨"b.py", 2, 1⟩]) (sampleUpdates.tail.map Event.update)
    sample_clean sample_restitch).2.1]
  rfl

end Glia.Engine.Groups
