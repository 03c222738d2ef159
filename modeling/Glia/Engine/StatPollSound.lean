import Glia.Engine.StatPollTable

/-! A scan reports every file whose content is not the one the session last read. -/
namespace Glia.Engine.Poll

open Glia.Kit (OrdMap)

section Inputs
variable (env : Env)

def InputAgrees (s : State) (rel : String) : Prop :=
  ∀ v, s.session.watched[rel]? = some v → s.lastRead rel = bytesOf (s.disk rel)

/-- The fingerprint a watched input's bytes are compared with. -/
def baselineOf (s : State) (rel : String) : Option UInt64 :=
  (s.session.baselines[rel]?).map Prod.snd

/-- A write restores a watched input's baseline, other bytes than were last read, and its stamp;
or the stat that ends an update finds the baseline's bytes back, after the update read others. -/
def restores (s : State) : Event → Bool
  | .write rel bytes mtime => (s.session.watched[rel]?).any fun v =>
      v.stamp = some ⟨bytes.length, some mtime⟩ &&
        baselineOf s rel = some (bytesFp env (some bytes)) && s.lastRead rel ≠ some bytes
  | .refreshInput =>
    match s.phase with
    | .refresh inputs ((rel, _) :: _) => !s.session.watched.contains rel &&
        baselineOf s rel = some (bytesFp env (bytesOf (s.disk rel))) &&
        (inputs[rel]?).join ≠ bytesOf (s.disk rel)
    | _ => false
  | _ => false

def ReadWell (s : State) (inputs : OrdMap String (Option (List UInt8))) : Prop :=
  ∀ (rel : String) (b : Option (List UInt8)), inputs[rel]? = some b →
    b = bytesOf (s.disk rel) ∨ Late s.session.scannedAt (s.disk rel)

def OwnClass (s : State) (w : Work) : Prop :=
  ∀ (rel : String) (v : Watched), s.session.watched[rel]? = some v →
    (∀ cls, w.capturing[rel]? = some cls → cls = v.cls) ∧
    ∀ b, w.captured[rel]? = some b → b.1 = v.cls

structure InputSound (s : State) : Prop where
  input : ∀ rel, InputAgrees s rel ∨ Late s.session.scannedAt (s.disk rel)
  /-- No baseline holds bytes that the stat does not tell from others that were read. -/
  shown : ∀ (rel : String) (v : Watched), s.session.watched[rel]? = some v →
    stampOf (s.disk rel) = v.stamp → baselineOf s rel = some (bytesFp env (bytesOf (s.disk rel))) →
    s.lastRead rel = bytesOf (s.disk rel)
  scan : ∀ sc, s.phase = .scan sc → Checked sc.inputs sc.found sc.touched (InputAgrees s) ∧
    Listed sc.inputs s.session.watched ∧
    ∀ (rel : String) (v : Watched), sc.inputs[rel]? = some .racy →
      s.session.watched[rel]? = some v → rel ∈ sc.touched ∨ stampOf (s.disk rel) = v.stamp
  work : ∀ w, s.phase = .work w → ReadWell s w.inputs ∧ OwnClass s w
  refresh : ∀ inputs todo, s.phase = .refresh inputs todo → ReadWell s inputs ∧
    ∀ e ∈ todo, inputs.contains e.1 = true

variable {env} {s s' : State} {e : Event}

theorem InputSound.scanning (h : InputSound env s) {sc' : Scan}
    (checked : Checked sc'.inputs sc'.found sc'.touched (InputAgrees s))
    (listed : Listed sc'.inputs s.session.watched)
    (racy : ∀ (rel : String) (v : Watched), sc'.inputs[rel]? = some .racy →
      s.session.watched[rel]? = some v → rel ∈ sc'.touched ∨ stampOf (s.disk rel) = v.stamp) :
    InputSound env { s with phase := .scan sc' } := by
  refine ⟨h.input, h.shown, ?_, by simp, by simp⟩
  rintro _ ⟨⟩
  exact ⟨checked, listed, racy⟩

theorem InputSound.working (h : InputSound env s) {w' : Work} (read : ReadWell s w'.inputs)
    (own : OwnClass s w') : InputSound env { s with phase := .work w' } := by
  refine ⟨h.input, h.shown, by simp, ?_, by simp⟩
  rintro _ ⟨⟩
  exact ⟨read, own⟩

theorem InputSound.write {rel : String} {bytes : List UInt8} {mtime : Nat}
    {h : mtime ≤ s.clock ∧ s.clock < mtime + racyWindow} (time : Timed s)
    (sound : InputSound env s) (clean : restores env s (.write rel bytes mtime) = false) :
    InputSound env { s with
      disk := written s rel bytes mtime h, phase := s.phase.touch rel } := by
  have off : ∀ x, x ≠ rel → InputAgrees s x → InputAgrees { s with
      disk := written s rel bytes mtime h, phase := s.phase.touch rel } x := by
    intro x apart agrees v entry
    rw [agrees v entry]
    exact congrArg bytesOf (written_off (h := h) apart).symm
  have fresh : Late s.session.scannedAt (written s rel bytes mtime h rel) :=
    written_late time.watermark (.inl rfl)
  have read : ∀ inputs, ReadWell s inputs → ReadWell { s with
      disk := written s rel bytes mtime h, phase := s.phase.touch rel } inputs := by
    intro inputs well x b entry
    by_cases same : x = rel
    · subst same
      exact .inr fresh
    · rcases well x b entry with now | late
      · left
        rw [now]
        exact congrArg bytesOf (written_off (h := h) same).symm
      · exact .inr (written_late (h := h) time.watermark (.inr late))
  constructor
  · intro x
    by_cases same : x = rel
    · subst same
      exact .inr fresh
    · rcases sound.input x with agrees | late
      · exact .inl (off x same agrees)
      · exact .inr (written_late (h := h) time.watermark (.inr late))
  · intro x v entry stamp based
    by_cases same : x = rel
    · subst same
      have now : written s x bytes mtime h x =
          some ⟨bytes, mtime, s.clock, h.1, h.2⟩ := Function.update_self ..
      dsimp only at stamp based ⊢
      rw [now] at stamp based ⊢
      by_contra other
      simp only [restores, entry, Option.any_some, ← stamp, stampOf, Option.map_some, decide_true,
        Bool.true_and, Bool.and_eq_false_iff, decide_eq_false_iff_not] at clean
      exact clean.elim (fun apart => apart based) fun same => same other
    · have now : written s rel bytes mtime h x = s.disk x := written_off same
      dsimp only at stamp based ⊢
      rw [now] at stamp based ⊢
      exact sound.shown x v entry stamp based
  · intro sc' phase
    obtain ⟨sc, was, rfl⟩ := touch_eq_scan phase
    obtain ⟨checked, listed, racy⟩ := sound.scan sc was
    refine ⟨checked.touch off, listed, ?_⟩
    intro x v waiting entry
    by_cases same : x = rel
    · exact .inl (same ▸ List.mem_cons_self)
    · rcases racy x v waiting entry with touched | stamp
      · exact .inl (List.mem_cons_of_mem _ touched)
      · right
        rw [← stamp]
        exact congrArg stampOf (written_off (h := h) same)
  · intro w' phase
    obtain ⟨w, was, rfl⟩ := touch_eq_work phase
    obtain ⟨well, own⟩ := sound.work w was
    exact ⟨read _ well, own⟩
  · intro inputs todo phase
    have was : s.phase = .refresh inputs todo := by
      cases before : s.phase with
      | refresh i t =>
        rw [before] at phase
        exact phase
      | idle => rw [before] at phase; cases phase
      | scan sc => rw [before] at phase; cases phase
      | work w => rw [before] at phase; cases phase
    obtain ⟨well, todo_⟩ := sound.refresh inputs todo was
    exact ⟨read _ well, todo_⟩

theorem racy_insert {checks : OrdMap String Check} {touched : List String}
    (racy : ∀ (rel : String) (v : Watched), checks[rel]? = some .racy →
      s.session.watched[rel]? = some v → rel ∈ touched ∨ stampOf (s.disk rel) = v.stamp)
    {x : String} {c : Check}
    (ok : c = .racy → ∀ v, s.session.watched[x]? = some v →
      x ∈ touched ∨ stampOf (s.disk x) = v.stamp) :
    ∀ (rel : String) (v : Watched), (checks.insert x c)[rel]? = some .racy →
      s.session.watched[rel]? = some v → rel ∈ touched ∨ stampOf (s.disk rel) = v.stamp := by
  intro rel v waiting entry
  rw [OrdMap.get_insert] at waiting
  split_ifs at waiting with same
  · subst same
    exact ok (Option.some.inj waiting) v entry
  · exact racy rel v waiting entry

theorem OwnClass.insert_capturing {w : Work} (own : OwnClass s w) {rel : String} {cls : Input}
    (mine : ((s.session.watched[rel]?).map Watched.cls).getD .glia = cls) :
    OwnClass s { w with capturing := w.capturing.insert rel cls } := by
  intro x v entry
  obtain ⟨capturing, captured⟩ := own x v entry
  refine ⟨fun cls' chosen => ?_, captured⟩
  rw [OrdMap.get_insert] at chosen
  split_ifs at chosen with same
  · subst same
    cases chosen
    rw [← mine, entry]
    rfl
  · exact capturing cls' chosen

theorem OwnClass.insert_captured {w : Work} (own : OwnClass s w) {rel : String} {cls : Input}
    {fp : UInt64} (chosen : w.capturing[rel]? = some cls) :
    OwnClass s { w with captured := w.captured.insert rel (cls, fp) } := by
  intro x v entry
  obtain ⟨capturing, captured⟩ := own x v entry
  refine ⟨capturing, fun b held => ?_⟩
  rw [OrdMap.get_insert] at held
  split_ifs at held with same
  · subst same
    cases held
    exact capturing cls chosen
  · exact captured b held

theorem commit_kept {w : Work} (own : OwnClass s w) {plan : OrdMap String PendingClass}
    {consumed : Consumed} {rel : String} {v : Watched} {fp : UInt64}
    (entry : (s.session.commit w plan consumed).watched[rel]? = some v)
    (based : (((s.session.commit w plan consumed).baselines[rel]?).map Prod.snd) = some fp) :
    s.session.watched[rel]? = some v ∧ baselineOf s rel = some fp := by
  simp only [Session.commit, OrdMap.get_filter] at entry
  obtain ⟨held, kept⟩ := Option.filter_eq_some_iff.mp entry
  refine ⟨held, ?_⟩
  obtain ⟨b, found, rfl⟩ := Option.map_eq_some_iff.mp based
  simp only [Session.commit, Std.ExtTreeMap.getElem?_union, OrdMap.get_filter] at found
  rcases Option.or_eq_some_iff.mp found with new | ⟨-, old⟩
  · obtain ⟨captured, read⟩ := Option.filter_eq_some_iff.mp new
    rw [(own rel v held).2 b captured] at read
    rw [read] at kept
    cases kept
  · obtain ⟨base, -⟩ := Option.filter_eq_some_iff.mp old
    rw [baselineOf, base]
    rfl

theorem InputSound.step (time : Timed s) (h : InputSound env s) (clean : restores env s e = false)
    (step : Step env s e s') : InputSound env s' := by
  obtain ⟨input, shown, scan, work, refresh⟩ := id h
  cases step with
  | tick => exact ⟨input, shown, scan, work, refresh⟩
  | write ok => exact InputSound.write (h := ok) time h clean
  | scanStart =>
    apply h.scanning
    · exact Checked.start _
    · exact Listed.start _
    · intro rel v waiting _
      rw [OrdMap.get_map] at waiting
      obtain ⟨_, -, todo⟩ := Option.map_eq_some_iff.mp waiting
      cases todo
  | fileMoved was =>
    obtain ⟨checked, listed, racy⟩ := scan _ was
    exact h.scanning (checked.more (List.subset_cons_self ..)) listed racy
  | fileRacy was =>
    obtain ⟨checked, listed, racy⟩ := scan _ was
    exact h.scanning checked listed racy
  | fileQuiet was =>
    obtain ⟨checked, listed, racy⟩ := scan _ was
    exact h.scanning checked listed racy
  | fileCompared was =>
    obtain ⟨checked, listed, racy⟩ := scan _ was
    apply h.scanning
    · dsimp only
      split_ifs
      · exact checked
      · exact checked.more (List.subset_cons_self ..)
    · exact listed
    · exact racy
  | inputMoved was =>
    obtain ⟨checked, listed, racy⟩ := scan _ was
    apply h.scanning
    · exact (checked.more (List.subset_cons_self ..)).mark fun _ => .inl List.mem_cons_self
    · exact listed.insert _ _
    · exact racy_insert racy fun e => by cases e
  | inputRacy was entry same =>
    obtain ⟨checked, listed, racy⟩ := scan _ was
    apply h.scanning
    · exact checked.mark fun e => by cases e
    · exact listed.insert _ _
    · apply racy_insert racy
      intro _ v held
      rw [entry] at held
      cases held
      exact .inr same
  | inputQuiet was entry same quiet =>
    obtain ⟨checked, listed, racy⟩ := scan _ was
    apply h.scanning
    · apply checked.mark
      intro _
      rcases input _ with agrees | late
      · exact .inr (.inr agrees)
      · exact .inr (.inl (touched_of_quiet time was late same quiet))
    · exact listed.insert _ _
    · exact racy_insert racy fun e => by cases e
  | @inputCompared sc rel fp was waiting fp_ =>
    obtain ⟨checked, listed, racy⟩ := scan _ was
    apply h.scanning
    · dsimp only
      split_ifs with same
      · apply checked.mark
        intro _
        by_cases touched : rel ∈ sc.touched
        · exact .inr (.inl touched)
        · right; right
          intro v entry
          have stat := (racy rel v waiting entry).resolve_left touched
          apply shown rel v entry stat
          rw [← fp_.resolve_right touched]
          exact same
      · exact (checked.more (List.subset_cons_self ..)).mark fun _ => .inl List.mem_cons_self
    · exact listed.insert _ _
    · exact racy_insert racy fun e => by cases e
  | other was =>
    obtain ⟨checked, listed, racy⟩ := scan _ was
    exact h.scanning (checked.more (List.subset_cons_self ..)) listed racy
  | @scanEnd sc was complete =>
    refine ⟨?_, shown, by simp, by simp, by simp⟩
    intro rel
    dsimp only
    split_ifs with nothing
    · obtain ⟨checked, listed, -⟩ := scan _ was
      obtain ⟨-, after, -, late, -⟩ := time.scan _ was
      rw [max_eq_right after]
      cases entry : s.session.watched[rel]? with
      | none =>
        left
        intro v held
        rw [entry] at held
        cases held
      | some v =>
        obtain ⟨c, check⟩ := listed rel v entry
        have inputs := (Bool.and_eq_true_iff.mp complete).2
        rcases checked rel (all_done inputs check) with hit | touched | agrees
        · rw [nothing] at hit
          cases hit
        · exact .inr (late rel touched)
        · exact .inl agrees
    · exact input rel
  | updateStart =>
    apply h.working
    · intro rel b read
      rw [Std.ExtTreeMap.getElem?_empty] at read
      cases read
    · intro rel v _
      constructor
      · intro cls chosen
        rw [Std.ExtTreeMap.getElem?_empty] at chosen
        cases chosen
      · intro b chosen
        rw [Std.ExtTreeMap.getElem?_empty] at chosen
        cases chosen
  | capturing was mine =>
    obtain ⟨read, own⟩ := work _ was
    exact h.working read (own.insert_capturing mine)
  | captured was chosen =>
    obtain ⟨read, own⟩ := work _ was
    exact h.working read (own.insert_captured chosen)
  | stamped was =>
    obtain ⟨read, own⟩ := work _ was
    exact h.working read own
  | restamped was => exact ⟨input, shown, by simp [was], work, by simp [was]⟩
  | reread was =>
    obtain ⟨read, own⟩ := work _ was
    exact h.working read own
  | @inputRead w rel bytes was read_ =>
    obtain ⟨read, own⟩ := work _ was
    apply h.working
    · intro x b held
      rw [OrdMap.get_insert] at held
      split_ifs at held with same
      · subst same
        cases held
        exact read_.imp_right (time.work w was rel)
      · exact read x b held
    · exact own
  | @commit w plan consumed todo was read_ =>
    obtain ⟨read, own⟩ := work _ was
    refine ⟨?_, ?_, by simp, by simp, ?_⟩
    · intro rel
      apply (input rel).imp_left
      intro agrees v entry
      simp only [Session.commit, OrdMap.get_filter] at entry
      exact agrees v (Option.filter_eq_some_iff.mp entry).1
    · intro rel v entry stat based
      obtain ⟨held, base⟩ := commit_kept own entry based
      exact shown rel v held stat base
    · rintro _ _ ⟨⟩
      exact ⟨read, read_⟩
  | @refreshKept inputs rel cls todo was =>
    obtain ⟨read, todo_⟩ := refresh _ _ was
    refine ⟨input, shown, by simp, by simp, ?_⟩
    rintro _ _ ⟨⟩
    exact ⟨read, fun e mem => todo_ e (List.mem_cons_of_mem _ mem)⟩
  | @refreshNew inputs rel cls todo was new =>
    obtain ⟨read, todo_⟩ := refresh _ _ was
    have listed := todo_ _ List.mem_cons_self
    rw [OrdMap.contains_eq_isSome] at listed
    obtain ⟨b, held⟩ := Option.isSome_iff_exists.mp listed
    have joined : (inputs[rel]?).join = b := by rw [held]; rfl
    refine ⟨?_, ?_, by simp, by simp, ?_⟩
    · intro x
      by_cases same : x = rel
      · subst same
        apply (read x b held).imp_left
        intro now v _
        dsimp only
        rw [Function.update_self, joined, now]
      · apply (input x).imp_left
        intro agrees v entry
        simp only [OrdMap.get_insert, if_neg (Ne.symm same)] at entry
        dsimp only
        rw [Function.update_of_ne same]
        exact agrees v entry
    · intro x v entry stat based
      by_cases same : x = rel
      · subst same
        dsimp only
        rw [Function.update_self]
        by_contra other
        simp only [restores, was, new, Bool.not_false, Bool.true_and, Bool.and_eq_false_iff,
          decide_eq_false_iff_not] at clean
        exact clean.elim (fun apart => apart based) fun same => same other
      · simp only [OrdMap.get_insert, if_neg (Ne.symm same)] at entry
        dsimp only
        rw [Function.update_of_ne same]
        exact shown x v entry stat based
    · rintro _ _ ⟨⟩
      exact ⟨read, fun e mem => todo_ e (List.mem_cons_of_mem _ mem)⟩
  | dropped => exact ⟨input, shown, by simp, by simp, by simp⟩
  | updateEnd => exact ⟨input, shown, by simp, by simp, by simp⟩

end Inputs

section Run
variable {env : Env} {s s' : State}

def cleanRun (env : Env) (s : State) : List Event → Bool
  | [] => true
  | e :: es => !restores env s e && (step env s e).all fun s' => cleanRun env s' es

theorem run_sound (time : Timed s) (table : TableSound env s) {events : List Event}
    (made : run env s events = some s') : Timed s' ∧ TableSound env s' := by
  induction events generalizing s with
  | nil =>
    cases made
    exact ⟨time, table⟩
  | cons e es ih =>
    obtain ⟨next, first, rest⟩ := Option.bind_eq_some_iff.mp made
    have step := step_cases first
    exact ih (time.step step) (table.step time step) rest

theorem run_inputSound (time : Timed s) (input : InputSound env s) {events : List Event}
    (clean : cleanRun env s events = true) (made : run env s events = some s') : InputSound env s' := by
  induction events generalizing s with
  | nil =>
    cases made
    exact input
  | cons e es ih =>
    obtain ⟨next, first, rest⟩ := Option.bind_eq_some_iff.mp made
    have step := step_cases first
    rw [cleanRun, Bool.and_eq_true, Bool.not_eq_true', first, Option.all_some] at clean
    exact ih (time.step step) (input.step time clean.1 step) clean.2 rest

variable {clock : Nat} {disk : Disk}

theorem Timed.opening (past : ∀ rel f, disk rel = some f → f.written ≤ clock) :
    Timed (opening clock disk) := by
  refine ⟨Nat.le_refl _, past, by simp [Poll.opening], ?_⟩
  rintro _ ⟨⟩
  simp

theorem TableSound.opening : TableSound env (opening clock disk) := by
  refine ⟨fun rel => .inl fun r entry => ?_, by simp [Poll.opening], ?_⟩
  · simp [Poll.opening] at entry
  · rintro _ ⟨⟩ rel r entry
    simp at entry

theorem InputSound.opening : InputSound env (opening clock disk) := by
  refine ⟨fun rel => .inl fun v entry => ?_, fun rel v entry => ?_, by simp [Poll.opening], ?_,
    by simp [Poll.opening]⟩
  · simp [Poll.opening] at entry
  · simp [Poll.opening] at entry
  · rintro _ ⟨⟩
    exact ⟨fun rel b entry => by simp at entry, fun rel v entry => by simp [Poll.opening] at entry⟩

end Run

/-- In every run from an open, a scan that made its checks found every table entry whose file
reads as something else and was not written meanwhile; and, where no step restores a baseline,
every watched input whose bytes are not the ones its class's last update read. -/
theorem scan_reports (env : Env) (clock : Nat) (disk : Disk) (events : List Event) (s : State)
    (sc : Scan) (past : ∀ rel f, disk rel = some f → f.written ≤ clock)
    (made : run env (opening clock disk) events = some s) (scan : s.phase = .scan sc)
    (complete : sc.complete = true) :
    (∀ (rel : String) (r : ReadRecord), s.session.table[rel]? = some r → rel ∉ sc.touched →
      r.read ≠ readOne env rel r.cls (s.disk rel) → rel ∈ sc.found) ∧
    (cleanRun env (opening clock disk) events = true →
      ∀ (rel : String) (v : Watched), s.session.watched[rel]? = some v → rel ∉ sc.touched →
        s.lastRead rel ≠ bytesOf (s.disk rel) → rel ∈ sc.found) := by
  have time := Timed.opening past
  obtain ⟨files, inputs⟩ := Bool.and_eq_true_iff.mp complete
  constructor
  · intro rel r entry still differs
    obtain ⟨-, sound⟩ := run_sound time TableSound.opening made
    obtain ⟨checked, listed⟩ := sound.scan sc scan
    obtain ⟨c, check⟩ := listed rel r entry
    rcases checked rel (all_done files check) with hit | touched | agrees
    · exact hit
    · exact absurd touched still
    · exact absurd (agrees r entry) differs
  · intro clean rel v entry still differs
    have sound := run_inputSound time InputSound.opening clean made
    obtain ⟨checked, listed, -⟩ := sound.scan sc scan
    obtain ⟨c, check⟩ := listed rel v entry
    rcases checked rel (all_done inputs check) with hit | touched | agrees
    · exact hit
    · exact absurd touched still
    · exact absurd (agrees v entry) differs

section Sample

def sampleEnv : Env where
  xxh64 bytes := bytes.foldl (fun h b => (h ^^^ b.toUInt64) * 0x100000001b3) 0xcbf29ce484222325
  dotnetSettings _ := false
  jsonContract _ := false
  jsonSchema _ := false
  nginx _ := false

def sampleClock : Nat := 10000000000

def ignoreFile : File :=
  ⟨[97], sampleClock, sampleClock, Nat.le_refl _, by decide⟩

def sampleDisk : Disk := fun rel => if rel = ".gitignore" then some ignoreFile else none

def walkUpdate (bytes : Option (List UInt8)) (before after : List Event) : List Event :=
  before ++ [.inputRead ".gitignore" bytes] ++ after ++
    [.commit ∅ ⟨true, true, false, false⟩ [(".gitignore", .walk)], .refreshInput, .updateEnd]

def checkInput (bytes : Option (List UInt8)) : List Event :=
  [.scanStart, .inputStat ".gitignore", .inputFp ".gitignore" (bytesFp sampleEnv bytes)]

def rewriteRun : List Event :=
  walkUpdate (some [97]) [] [] ++ [.write ".gitignore" [98] sampleClock] ++ checkInput (some [98])

/-- The open, a rewrite, and an update whose read falls between two more rewrites of one tick. -/
def restoreRun : List Event :=
  walkUpdate (some [97]) [] [] ++
    [.write ".gitignore" [98] sampleClock, .updateStart true, .captureStat ".gitignore" .walk,
      .captureFp ".gitignore" (bytesFp sampleEnv (some [98]))] ++
    walkUpdate (some [99]) [.write ".gitignore" [99] sampleClock]
      [.write ".gitignore" [98] sampleClock] ++
    checkInput (some [98])

/-- The scan a run ends in, when it is complete and nothing was written during it. -/
def endScan (s : State) : Option Scan :=
  match s.phase with
  | .scan sc => if sc.complete ∧ sc.touched = [] then some sc else none
  | _ => none

theorem endScan_eq {s : State} {sc : Scan} (h : endScan s = some sc) :
    s.phase = .scan sc ∧ sc.complete = true ∧ sc.touched = [] := by
  unfold endScan at h
  split at h
  · obtain ⟨ok, ⟨⟩⟩ := Option.ite_none_right_eq_some.mp h
    exact ⟨‹_›, ok⟩
  · cases h

end Sample

/-- The update read `c`, its baseline and the file hold `b`, and the scan finds nothing. -/
theorem scan_misses_restored : ∃ s sc, run sampleEnv (opening sampleClock sampleDisk) restoreRun =
      some s ∧ s.phase = .scan sc ∧ sc.complete = true ∧ sc.touched = [] ∧ sc.found = [] ∧
      s.session.watched.contains ".gitignore" = true ∧
      s.lastRead ".gitignore" ≠ bytesOf (s.disk ".gitignore") := by
  have checked : (run sampleEnv (opening sampleClock sampleDisk) restoreRun).any (fun s =>
      (endScan s).any fun sc => sc.found = [] && s.session.watched.contains ".gitignore" &&
        s.lastRead ".gitignore" ≠ bytesOf (s.disk ".gitignore")) = true := by
    decide +kernel
  obtain ⟨s, made, found⟩ := (Option.any_eq_true _ _).mp checked
  obtain ⟨sc, ended, ok⟩ := (Option.any_eq_true _ _).mp found
  obtain ⟨scan, complete, touched⟩ := endScan_eq ended
  simp only [Bool.and_eq_true, decide_eq_true_eq] at ok
  exact ⟨s, sc, made, scan, complete, touched, ok.1.1, ok.1.2, ok.2⟩

theorem scan_reports_rewrite : ∃ s sc, run sampleEnv (opening sampleClock sampleDisk) rewriteRun =
    some s ∧ s.phase = .scan sc ∧ ".gitignore" ∈ sc.found := by
  have checked : (run sampleEnv (opening sampleClock sampleDisk) rewriteRun).any (fun s =>
      (endScan s).isSome && s.session.watched.contains ".gitignore" &&
        s.lastRead ".gitignore" ≠ bytesOf (s.disk ".gitignore")) = true := by
    decide +kernel
  obtain ⟨s, made, ok⟩ := (Option.any_eq_true _ _).mp checked
  simp only [Bool.and_eq_true, decide_eq_true_eq] at ok
  obtain ⟨sc, ended⟩ := Option.isSome_iff_exists.mp ok.1.1
  obtain ⟨scan, complete, touched⟩ := endScan_eq ended
  have past : ∀ rel f, sampleDisk rel = some f → f.written ≤ sampleClock := by
    intro rel f held
    obtain ⟨-, ⟨⟩⟩ := Option.ite_none_right_eq_some.mp held
    exact Nat.le_refl _
  have watched := ok.1.2
  rw [OrdMap.contains_eq_isSome] at watched
  obtain ⟨v, entry⟩ := Option.isSome_iff_exists.mp watched
  exact ⟨s, sc, made, scan, (scan_reports sampleEnv sampleClock sampleDisk rewriteRun s sc past
    made scan complete).2 (by decide +kernel) ".gitignore" v entry (by simp [touched]) ok.2⟩

end Glia.Engine.Poll
