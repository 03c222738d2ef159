import Glia.Engine.StatPollStep

/-! The clock and the file table of a watch session through its scans and updates. -/
namespace Glia.Engine.Poll

open Glia.Kit (OrdMap)

section Late

def Late (t : Nat) (f : Option File) : Prop := ∃ g, f = some g ∧ t ≤ g.written

theorem racy_of_late {f : Option File} {stamp : Option FileStamp} {scanned started : Nat}
    (late : Late scanned f) (same : stampOf f = stamp)
    (before : ∀ g, f = some g → g.written ≤ started) :
    (stamp.any fun st => (Window.between scanned started).racy st.mtime) = true := by
  obtain ⟨g, rfl, after⟩ := late
  have early := before g rfl
  have notAfter := g.notAfter
  have within := g.within
  subst same
  have lo : scanned ≤ g.mtime + racyWindow := by omega
  have hi : g.mtime ≤ started + racyWindow := by omega
  simp [stampOf, Window.racy, Window.between, lo, hi]

end Late

section Checked

/-- A check that is made found its file, or a write fell into the scan, or nothing differs. -/
def Checked (checks : OrdMap String Check) (found touched : List String) (Agree : String → Prop) :
    Prop :=
  ∀ rel, checks[rel]? = some .done → rel ∈ found ∨ rel ∈ touched ∨ Agree rel

variable {checks : OrdMap String Check} {found found' touched : List String}
  {Agree Agree' : String → Prop}

theorem Checked.start {β : Type} (m : OrdMap String β) :
    Checked (m.map fun _ _ => .todo) found touched Agree := by
  intro rel done
  rw [OrdMap.get_map, Option.map_eq_some_iff] at done
  obtain ⟨_, _, none_⟩ := done
  cases none_

theorem Checked.more (h : Checked checks found touched Agree) (grown : found ⊆ found') :
    Checked checks found' touched Agree := by
  intro rel done
  rcases h rel done with hit | rest
  · exact .inl (grown hit)
  · exact .inr rest

theorem Checked.mark (h : Checked checks found touched Agree) {rel : String} {c : Check}
    (ok : c = .done → rel ∈ found ∨ rel ∈ touched ∨ Agree rel) :
    Checked (checks.insert rel c) found touched Agree := by
  intro x done
  rw [OrdMap.get_insert] at done
  split_ifs at done with same
  · subst same
    exact ok (Option.some.inj done)
  · exact h x done

theorem Checked.touch (h : Checked checks found touched Agree) {rel : String}
    (off : ∀ x, x ≠ rel → Agree x → Agree' x) : Checked checks found (rel :: touched) Agree' := by
  intro x done
  by_cases same : x = rel
  · exact .inr (.inl (same ▸ List.mem_cons_self))
  · rcases h x done with hit | hit | hit
    · exact .inl hit
    · exact .inr (.inl (List.mem_cons_of_mem _ hit))
    · exact .inr (.inr (off x same hit))

def Listed {β : Type} (checks : OrdMap String Check) (m : OrdMap String β) : Prop :=
  ∀ (rel : String) (r : β), m[rel]? = some r → ∃ c : Check, checks[rel]? = some c

theorem Listed.start {β : Type} (m : OrdMap String β) : Listed (m.map fun _ _ => .todo) m := by
  intro rel r entry
  exact ⟨.todo, by rw [OrdMap.get_map, entry]; rfl⟩

theorem Listed.insert {β : Type} {m : OrdMap String β} (listed : Listed checks m) (x : String)
    (c : Check) : Listed (checks.insert x c) m := by
  intro rel r entry
  rw [OrdMap.get_insert]
  split_ifs
  · exact ⟨c, rfl⟩
  · exact listed rel r entry

theorem all_done {checks : OrdMap String Check}
    (complete : (checks.toList.all fun e => e.2 = .done) = true) {rel : String} {c : Check}
    (listed : checks[rel]? = some c) : checks[rel]? = some .done := by
  have done := List.all_eq_true.mp complete (rel, c) (OrdMap.mem_toList.mpr listed)
  rw [listed, of_decide_eq_true (p := c = .done) done]

end Checked

section Time

structure ScanTime (s : State) (sc : Scan) : Prop where
  scanned : sc.scanned = s.session.scannedAt
  after : s.session.scannedAt ≤ sc.started
  now : sc.started ≤ s.clock
  late : ∀ rel ∈ sc.touched, Late sc.started (s.disk rel)
  still : ∀ rel, rel ∉ sc.touched → ∀ f, s.disk rel = some f → f.written ≤ sc.started

structure Timed (s : State) : Prop where
  watermark : s.session.scannedAt ≤ s.clock
  past : ∀ rel f, s.disk rel = some f → f.written ≤ s.clock
  scan : ∀ sc, s.phase = .scan sc → ScanTime s sc
  work : ∀ w, s.phase = .work w → ∀ rel ∈ w.touched, Late s.session.scannedAt (s.disk rel)

variable {env : Env} {s s' : State} {e : Event}

theorem Timed.scanning (h : Timed s) {sc sc' : Scan} (was : s.phase = .scan sc)
    (scanned : sc'.scanned = sc.scanned) (started : sc'.started = sc.started)
    (touched : sc'.touched = sc.touched) : Timed { s with phase := .scan sc' } := by
  refine ⟨h.watermark, h.past, ?_, by simp⟩
  rintro _ ⟨⟩
  obtain ⟨scanned_, after, now, late, still⟩ := h.scan sc was
  constructor
  · rw [scanned]
    exact scanned_
  · rw [started]
    exact after
  · rw [started]
    exact now
  · rw [started, touched]
    exact late
  · rw [started, touched]
    exact still

theorem Timed.working (h : Timed s) {w w' : Work} (was : s.phase = .work w)
    (touched : w'.touched = w.touched) : Timed { s with phase := .work w' } := by
  refine ⟨h.watermark, h.past, by simp, ?_⟩
  rintro _ ⟨⟩
  rw [touched]
  exact h.work w was

theorem touch_eq_scan {p : Phase} {rel : String} {sc' : Scan} (h : p.touch rel = .scan sc') :
    ∃ sc, p = .scan sc ∧ sc' = { sc with touched := rel :: sc.touched } := by
  cases p with
  | scan sc => exact ⟨sc, rfl, (Phase.scan.inj h).symm⟩
  | idle => cases h
  | work w => cases h
  | refresh i t => cases h

theorem touch_eq_work {p : Phase} {rel : String} {w' : Work} (h : p.touch rel = .work w') :
    ∃ w, p = .work w ∧ w' = { w with touched := rel :: w.touched } := by
  cases p with
  | work w => exact ⟨w, rfl, (Phase.work.inj h).symm⟩
  | idle => cases h
  | scan sc => cases h
  | refresh i t => cases h

theorem racy_past {mtime : Nat} (h : mtime ≤ s.clock ∧ s.clock < mtime + racyWindow) :
    mtime ≤ s.clock := h.1

theorem racy_recent {mtime : Nat} (h : mtime ≤ s.clock ∧ s.clock < mtime + racyWindow) :
    s.clock < mtime + racyWindow := h.2

def written (s : State) (rel : String) (bytes : List UInt8) (mtime : Nat)
    (h : mtime ≤ s.clock ∧ s.clock < mtime + racyWindow) : Disk :=
  Function.update s.disk rel (some ⟨bytes, mtime, s.clock, racy_past h, racy_recent h⟩)

section Write
variable {rel : String} {bytes : List UInt8} {mtime : Nat}
  {h : mtime ≤ s.clock ∧ s.clock < mtime + racyWindow}

theorem written_off {x : String} (off : x ≠ rel) : written s rel bytes mtime h x = s.disk x :=
  Function.update_of_ne off ..

theorem written_late {x : String} {t : Nat} (le : t ≤ s.clock)
    (or_ : x = rel ∨ Late t (s.disk x)) : Late t (written s rel bytes mtime h x) := by
  by_cases same : x = rel
  · subst same
    exact ⟨_, Function.update_self .., le⟩
  · rw [written_off same]
    exact or_.resolve_left same

theorem Timed.write (time : Timed s) : Timed { s with
    disk := written s rel bytes mtime h, phase := s.phase.touch rel } := by
  constructor
  · exact time.watermark
  · intro x f held
    by_cases same : x = rel
    · subst same
      have file := (Function.update_self ..).symm.trans held
      cases file
      exact Nat.le_refl _
    · exact time.past x f ((written_off (h := h) same).symm.trans held)
  · intro sc' phase
    obtain ⟨sc, was, rfl⟩ := touch_eq_scan phase
    obtain ⟨scanned, after, now, late, still⟩ := time.scan sc was
    refine ⟨scanned, after, now, fun x mem => ?_, fun x free f held => ?_⟩
    · apply written_late (h := h) now
      exact (List.mem_cons.mp mem).imp_right (late x)
    · have same : x ≠ rel := fun e => free (e ▸ List.mem_cons_self)
      exact still x (fun mem => free (List.mem_cons_of_mem _ mem)) f
        ((written_off (h := h) same).symm.trans held)
  · intro w' phase x mem
    obtain ⟨w, was, rfl⟩ := touch_eq_work phase
    apply written_late (h := h) time.watermark
    exact (List.mem_cons.mp mem).imp_right (time.work w was x)

end Write

theorem Timed.step (h : Timed s) (step : Step env s e s') : Timed s' := by
  obtain ⟨watermark, past, scan, work⟩ := id h
  cases step with
  | tick later =>
    constructor
    · exact Nat.le_trans watermark later
    · intro rel f held
      exact Nat.le_trans (past rel f held) later
    · intro sc phase
      obtain ⟨scanned, after, now, late, still⟩ := scan sc phase
      exact ⟨scanned, after, Nat.le_trans now later, late, still⟩
    · exact work
  | write ok => exact h.write (h := ok)
  | scanStart idle =>
    refine ⟨watermark, past, ?_, by simp⟩
    rintro _ ⟨⟩
    exact ⟨rfl, watermark, Nat.le_refl _, by simp, fun x _ f held => past x f held⟩
  | fileMoved was => exact h.scanning was rfl rfl rfl
  | fileRacy was => exact h.scanning was rfl rfl rfl
  | fileQuiet was => exact h.scanning was rfl rfl rfl
  | fileCompared was => exact h.scanning was rfl rfl rfl
  | inputMoved was => exact h.scanning was rfl rfl rfl
  | inputRacy was => exact h.scanning was rfl rfl rfl
  | inputQuiet was => exact h.scanning was rfl rfl rfl
  | inputCompared was => exact h.scanning was rfl rfl rfl
  | other was => exact h.scanning was rfl rfl rfl
  | scanEnd was =>
    refine ⟨?_, past, by simp, by simp⟩
    dsimp only
    split_ifs
    · exact Nat.max_le.mpr ⟨watermark, (scan _ was).now⟩
    · exact watermark
  | updateStart =>
    refine ⟨watermark, past, by simp, ?_⟩
    rintro _ ⟨⟩
    simp
  | capturing was => exact h.working was rfl
  | captured was => exact h.working was rfl
  | stamped was => exact h.working was rfl
  | restamped was => exact ⟨watermark, past, by simp [was], work⟩
  | reread was => exact h.working was rfl
  | inputRead was => exact h.working was rfl
  | commit => exact ⟨watermark, past, by simp, by simp⟩
  | refreshKept => exact ⟨watermark, past, by simp, by simp⟩
  | refreshNew => exact ⟨watermark, past, by simp, by simp⟩
  | dropped => exact ⟨watermark, past, by simp, by simp⟩
  | updateEnd => exact ⟨watermark, past, by simp, by simp⟩

theorem touched_of_quiet (time : Timed s) {sc : Scan} (scan : s.phase = .scan sc) {rel : String}
    {stamp : Option FileStamp} (late : Late s.session.scannedAt (s.disk rel))
    (same : stampOf (s.disk rel) = stamp)
    (quiet : (stamp.any fun st => sc.window.racy st.mtime) = false) : rel ∈ sc.touched := by
  obtain ⟨scanned, -, -, -, still⟩ := time.scan sc scan
  by_contra free
  rw [← scanned] at late
  have racy := racy_of_late late same (still rel free)
  rw [Scan.window, racy] at quiet
  cases quiet

end Time

section Table
variable (env : Env)

def Agrees (s : State) (rel : String) : Prop :=
  ∀ r, s.session.table[rel]? = some r → r.read = readOne env rel r.cls (s.disk rel)

structure TableSound (s : State) : Prop where
  table : ∀ rel, Agrees env s rel ∨ Late s.session.scannedAt (s.disk rel)
  scan : ∀ sc, s.phase = .scan sc → Checked sc.files sc.found sc.touched (Agrees env s) ∧
    Listed sc.files s.session.table
  work : ∀ w, s.phase = .work w → ∀ (rel : String) (r : ReadRecord), w.fresh[rel]? = some r →
    r.read = readOne env rel r.cls (s.disk rel) ∨ Late s.session.scannedAt (s.disk rel)

variable {env} {s s' : State} {e : Event}

theorem TableSound.scanning (h : TableSound env s) {sc' : Scan}
    (checked : Checked sc'.files sc'.found sc'.touched (Agrees env s))
    (listed : Listed sc'.files s.session.table) : TableSound env { s with phase := .scan sc' } := by
  refine ⟨h.table, ?_, by simp⟩
  rintro _ ⟨⟩
  exact ⟨checked, listed⟩

theorem TableSound.working (h : TableSound env s) {w' : Work}
    (fresh : ∀ (rel : String) (r : ReadRecord), w'.fresh[rel]? = some r →
      r.read = readOne env rel r.cls (s.disk rel) ∨ Late s.session.scannedAt (s.disk rel)) :
    TableSound env { s with phase := .work w' } := by
  refine ⟨h.table, by simp, ?_⟩
  rintro _ ⟨⟩
  exact fresh

theorem TableSound.keep (h : TableSound env s) {w w' : Work} (was : s.phase = .work w)
    (fresh : w'.fresh = w.fresh) : TableSound env { s with phase := .work w' } := by
  apply h.working
  rw [fresh]
  exact h.work w was

theorem TableSound.write {rel : String} {bytes : List UInt8} {mtime : Nat}
    {h : mtime ≤ s.clock ∧ s.clock < mtime + racyWindow} (time : Timed s)
    (sound : TableSound env s) : TableSound env { s with
      disk := written s rel bytes mtime h, phase := s.phase.touch rel } := by
  have off : ∀ x, x ≠ rel → Agrees env s x → Agrees env { s with
      disk := written s rel bytes mtime h, phase := s.phase.touch rel } x := by
    intro x apart agrees r entry
    rw [agrees r entry]
    exact congrArg (readOne env x r.cls) (written_off (h := h) apart).symm
  have fresh : Late s.session.scannedAt (written s rel bytes mtime h rel) :=
    written_late time.watermark (.inl rfl)
  constructor
  · intro x
    by_cases same : x = rel
    · subst same
      exact .inr fresh
    · rcases sound.table x with agrees | late
      · exact .inl (off x same agrees)
      · exact .inr (written_late (h := h) time.watermark (.inr late))
  · intro sc' phase
    obtain ⟨sc, was, rfl⟩ := touch_eq_scan phase
    obtain ⟨checked, listed⟩ := sound.scan sc was
    exact ⟨checked.touch off, listed⟩
  · intro w' phase x r entry
    obtain ⟨w, was, rfl⟩ := touch_eq_work phase
    by_cases same : x = rel
    · subst same
      exact .inr fresh
    · rcases sound.work w was x r entry with read | late
      · left
        rw [read]
        exact congrArg (readOne env x r.cls) (written_off (h := h) same).symm
      · exact .inr (written_late (h := h) time.watermark (.inr late))

theorem TableSound.step (time : Timed s) (h : TableSound env s) (step : Step env s e s') :
    TableSound env s' := by
  obtain ⟨table, scan, work⟩ := id h
  cases step with
  | tick => exact ⟨table, scan, work⟩
  | write ok => exact TableSound.write (h := ok) time h
  | scanStart =>
    apply h.scanning
    · exact Checked.start _
    · exact Listed.start _
  | fileMoved was =>
    obtain ⟨checked, listed⟩ := scan _ was
    apply h.scanning _ (listed.insert _ _)
    exact (checked.more (List.subset_cons_self ..)).mark fun _ => .inl List.mem_cons_self
  | fileRacy was =>
    obtain ⟨checked, listed⟩ := scan _ was
    exact h.scanning (checked.mark fun e => by cases e) (listed.insert _ _)
  | fileQuiet was entry same quiet =>
    obtain ⟨checked, listed⟩ := scan _ was
    apply h.scanning _ (listed.insert _ _)
    apply checked.mark
    intro _
    rcases table _ with agrees | late
    · exact .inr (.inr agrees)
    · exact .inr (.inl (touched_of_quiet time was late same quiet))
  | @fileCompared sc rel r read was entry read_ =>
    obtain ⟨checked, listed⟩ := scan _ was
    apply h.scanning _ (listed.insert _ _)
    dsimp only
    split_ifs with same
    · apply checked.mark
      intro _
      rcases read_ with now | touched
      · right; right
        intro r' entry'
        rw [entry] at entry'
        cases entry'
        rw [← same, now]
      · exact .inr (.inl touched)
    · exact (checked.more (List.subset_cons_self ..)).mark fun _ => .inl List.mem_cons_self
  | inputMoved was =>
    obtain ⟨checked, listed⟩ := scan _ was
    exact h.scanning (checked.more (List.subset_cons_self ..)) listed
  | inputRacy was =>
    obtain ⟨checked, listed⟩ := scan _ was
    exact h.scanning checked listed
  | inputQuiet was =>
    obtain ⟨checked, listed⟩ := scan _ was
    exact h.scanning checked listed
  | inputCompared was =>
    obtain ⟨checked, listed⟩ := scan _ was
    apply h.scanning
    · dsimp only
      split_ifs
      · exact checked
      · exact checked.more (List.subset_cons_self ..)
    · exact listed
  | other was =>
    obtain ⟨checked, listed⟩ := scan _ was
    exact h.scanning (checked.more (List.subset_cons_self ..)) listed
  | @scanEnd sc was complete =>
    refine ⟨?_, by simp, by simp⟩
    intro rel
    dsimp only
    split_ifs with nothing
    · -- Nothing found: whatever differs was written since the scan began.
      obtain ⟨checked, listed⟩ := scan _ was
      obtain ⟨-, after, -, late, -⟩ := time.scan _ was
      rw [max_eq_right after]
      cases entry : s.session.table[rel]? with
      | none =>
        left
        intro r held
        rw [entry] at held
        cases held
      | some r =>
        obtain ⟨c, check⟩ := listed rel r entry
        have files := (Bool.and_eq_true_iff.mp complete).1
        rcases checked rel (all_done files check) with hit | touched | agrees
        · rw [nothing] at hit
          cases hit
        · exact .inr (late rel touched)
        · exact .inl agrees
    · exact table rel
  | updateStart =>
    apply h.working
    intro rel r entry
    rw [Std.ExtTreeMap.getElem?_empty] at entry
    cases entry
  | capturing was => exact h.keep was rfl
  | captured was => exact h.keep was rfl
  | stamped was => exact h.keep was rfl
  | @restamped w rel old stamp was entry =>
    refine ⟨?_, by simp [was], work⟩
    intro x
    apply (table x).imp_left
    intro agrees r held
    simp only [OrdMap.get_insert] at held
    split_ifs at held with same
    · subst same
      cases held
      exact agrees old entry
    · exact agrees r held
  | @reread w rel cls read stamp was read_ =>
    apply h.working
    intro x r held
    rw [OrdMap.get_insert] at held
    split_ifs at held with same
    · subst same
      cases held
      exact read_.imp_right (time.work w was rel)
    · exact work w was x r held
  | inputRead was => exact h.keep was rfl
  | @commit w plan consumed todo was =>
    refine ⟨?_, by simp, by simp⟩
    intro rel
    by_cases late : Late s.session.scannedAt (s.disk rel)
    · exact .inr late
    · left
      intro r held
      simp only [Session.commit, Std.ExtTreeMap.getElem?_filterMap'] at held
      obtain ⟨cls, -, kept⟩ := Option.bind_eq_some_iff.mp held
      obtain ⟨chosen, -⟩ := Option.filter_eq_some_iff.mp kept
      rcases Option.or_eq_some_iff.mp chosen with fresh | ⟨-, old⟩
      · exact (work w was rel r fresh).resolve_right late
      · exact (table rel).resolve_right late r old
  | refreshKept => exact ⟨table, by simp, by simp⟩
  | refreshNew => exact ⟨table, by simp, by simp⟩
  | dropped => exact ⟨table, by simp, by simp⟩
  | updateEnd => exact ⟨table, by simp, by simp⟩

end Table

end Glia.Engine.Poll
