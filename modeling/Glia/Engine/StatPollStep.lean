import Glia.Engine.StatPoll

/-! What each step of a watch session's scans and updates does. -/
namespace Glia.Engine.Poll

open Glia.Kit (OrdMap)

inductive Step (env : Env) (s : State) : Event → State → Prop
  | tick {now : Nat} (later : s.clock ≤ now) : Step env s (.tick now) { s with clock := now }
  | write {rel : String} {bytes : List UInt8} {mtime : Nat}
      (h : mtime ≤ s.clock ∧ s.clock < mtime + racyWindow) :
      Step env s (.write rel bytes mtime) { s with
        disk := Function.update s.disk rel (some ⟨bytes, mtime, s.clock, h.1, h.2⟩)
        phase := s.phase.touch rel }
  | scanStart (idle : s.phase = .idle) : Step env s .scanStart { s with phase := .scan {
      scanned := s.session.scannedAt
      started := s.clock
      files := s.session.table.map fun _ _ => .todo
      inputs := s.session.watched.map fun _ _ => .todo
      found := []
      touched := [] } }
  | fileMoved {sc : Scan} {rel : String} {r : ReadRecord} (scan : s.phase = .scan sc)
      (entry : s.session.table[rel]? = some r) :
      Step env s (.scanStat rel) { s with phase := .scan { sc with
        files := sc.files.insert rel .done, found := rel :: sc.found } }
  | fileRacy {sc : Scan} {rel : String} {r : ReadRecord} (scan : s.phase = .scan sc)
      (entry : s.session.table[rel]? = some r) :
      Step env s (.scanStat rel) { s with phase := .scan { sc with
        files := sc.files.insert rel .racy } }
  | fileQuiet {sc : Scan} {rel : String} {r : ReadRecord} (scan : s.phase = .scan sc)
      (entry : s.session.table[rel]? = some r) (same : stampOf (s.disk rel) = r.stamp)
      (quiet : (r.stamp.any fun st => sc.window.racy st.mtime) = false) :
      Step env s (.scanStat rel) { s with phase := .scan { sc with
        files := sc.files.insert rel .done } }
  | fileCompared {sc : Scan} {rel : String} {r : ReadRecord} {read : Read}
      (scan : s.phase = .scan sc) (entry : s.session.table[rel]? = some r)
      (read_ : read = readOne env rel r.cls (s.disk rel) ∨ rel ∈ sc.touched) :
      Step env s (.scanRead rel read) { s with phase := .scan { sc with
        files := sc.files.insert rel .done
        found := if read = r.read then sc.found else rel :: sc.found } }
  | inputMoved {sc : Scan} {rel : String} {v : Watched} (scan : s.phase = .scan sc)
      (entry : s.session.watched[rel]? = some v) :
      Step env s (.inputStat rel) { s with phase := .scan { sc with
        inputs := sc.inputs.insert rel .done, found := rel :: sc.found } }
  | inputRacy {sc : Scan} {rel : String} {v : Watched} (scan : s.phase = .scan sc)
      (entry : s.session.watched[rel]? = some v) (same : stampOf (s.disk rel) = v.stamp) :
      Step env s (.inputStat rel) { s with phase := .scan { sc with
        inputs := sc.inputs.insert rel .racy } }
  | inputQuiet {sc : Scan} {rel : String} {v : Watched} (scan : s.phase = .scan sc)
      (entry : s.session.watched[rel]? = some v) (same : stampOf (s.disk rel) = v.stamp)
      (quiet : (v.stamp.any fun st => sc.window.racy st.mtime) = false) :
      Step env s (.inputStat rel) { s with phase := .scan { sc with
        inputs := sc.inputs.insert rel .done } }
  | inputCompared {sc : Scan} {rel : String} {fp : UInt64} (scan : s.phase = .scan sc)
      (waiting : sc.inputs[rel]? = some .racy)
      (fp_ : fp = bytesFp env (bytesOf (s.disk rel)) ∨ rel ∈ sc.touched) :
      Step env s (.inputFp rel fp) { s with phase := .scan { sc with
        inputs := sc.inputs.insert rel .done
        found :=
          if (s.session.baselines[rel]?).map Prod.snd = some fp then sc.found
          else rel :: sc.found } }
  | other {sc : Scan} {rel : String} (scan : s.phase = .scan sc) :
      Step env s (.scanOther rel) { s with phase := .scan { sc with found := rel :: sc.found } }
  | scanEnd {sc : Scan} (scan : s.phase = .scan sc) (complete : sc.complete = true) :
      Step env s .scanEnd { s with
        phase := .idle
        session := { s.session with
          scannedAt :=
            if sc.found = [] then max s.session.scannedAt sc.started else s.session.scannedAt } }
  | updateStart {replan : Bool} (idle : s.phase = .idle) :
      Step env s (.updateStart replan) { s with phase := .work {
        replan
        scanned := s.session.scannedAt
        capturing := ∅
        captured := ∅
        stamps := ∅
        fresh := ∅
        inputs := ∅
        touched := [] } }
  | capturing {w : Work} {rel : String} {cls : Input} (work : s.phase = .work w)
      (own : ((s.session.watched[rel]?).map Watched.cls).getD .glia = cls) :
      Step env s (.captureStat rel cls) { s with phase := .work { w with
        capturing := w.capturing.insert rel cls } }
  | captured {w : Work} {rel : String} {cls : Input} {fp : UInt64} (work : s.phase = .work w)
      (chosen : w.capturing[rel]? = some cls) :
      Step env s (.captureFp rel fp) { s with phase := .work { w with
        captured := w.captured.insert rel (cls, fp) } }
  | stamped {w : Work} {rel : String} (work : s.phase = .work w) :
      Step env s (.fileStamp rel) { s with phase := .work { w with
        stamps := w.stamps.insert rel (stampOf (s.disk rel)) } }
  | restamped {w : Work} {rel : String} {old : ReadRecord} {stamp : Option FileStamp}
      (work : s.phase = .work w) (entry : s.session.table[rel]? = some old) :
      Step env s (.fileRead rel old.cls old.read) { s with session := { s.session with
        table := s.session.table.insert rel { old with stamp } } }
  | reread {w : Work} {rel : String} {cls : PendingClass} {read : Read}
      {stamp : Option FileStamp} (work : s.phase = .work w)
      (read_ : read = readOne env rel cls (s.disk rel) ∨ rel ∈ w.touched) :
      Step env s (.fileRead rel cls read) { s with phase := .work { w with
        fresh := w.fresh.insert rel ⟨cls, read, stamp⟩ } }
  | inputRead {w : Work} {rel : String} {bytes : Option (List UInt8)} (work : s.phase = .work w)
      (read_ : bytes = bytesOf (s.disk rel) ∨ rel ∈ w.touched) :
      Step env s (.inputRead rel bytes) { s with phase := .work { w with
        inputs := w.inputs.insert rel bytes } }
  | commit {w : Work} {plan : OrdMap String PendingClass} {consumed : Consumed}
      {todo : List (String × Input)} (work : s.phase = .work w)
      (read_ : ∀ e ∈ todo, w.inputs.contains e.1 = true) :
      Step env s (.commit plan consumed todo) { s with
        session := s.session.commit w plan consumed
        phase := .refresh w.inputs todo }
  | refreshKept {inputs : OrdMap String (Option (List UInt8))} {rel : String} {cls : Input}
      {todo : List (String × Input)} (refresh : s.phase = .refresh inputs ((rel, cls) :: todo)) :
      Step env s .refreshInput { s with phase := .refresh inputs todo }
  | refreshNew {inputs : OrdMap String (Option (List UInt8))} {rel : String} {cls : Input}
      {todo : List (String × Input)} (refresh : s.phase = .refresh inputs ((rel, cls) :: todo))
      (new : s.session.watched.contains rel = false) :
      Step env s .refreshInput { s with
        session := { s.session with
          watched := s.session.watched.insert rel ⟨cls, stampOf (s.disk rel)⟩ }
        lastRead := Function.update s.lastRead rel (inputs[rel]?).join
        phase := .refresh inputs todo }
  | dropped {w : Work} (work : s.phase = .work w) :
      Step env s .updateEnd { s with phase := .idle }
  | updateEnd {inputs : OrdMap String (Option (List UInt8))}
      (refresh : s.phase = .refresh inputs []) : Step env s .updateEnd { s with phase := .idle }

theorem step_cases {env : Env} {s s' : State} {e : Event} (h : step env s e = some s') :
    Step env s e s' := by
  cases e with
  | tick now =>
    obtain ⟨later, ⟨⟩⟩ := Option.ite_none_right_eq_some.mp h
    exact .tick later
  | write rel bytes mtime =>
    obtain ⟨ok, ⟨⟩⟩ := Option.dite_none_right_eq_some.mp h
    exact .write ok
  | scanStart =>
    simp only [step] at h
    split at h
    · cases h
      exact .scanStart ‹_›
    · cases h
  | scanStat rel =>
    simp only [step] at h
    split at h
    · split_ifs at h with todo moved racy
      · cases h
        exact .fileMoved ‹_› ‹_›
      · cases h
        exact .fileRacy ‹_› ‹_›
      · cases h
        exact .fileQuiet ‹_› ‹_› (not_not.mp moved) (Bool.not_eq_true _ ▸ racy)
    · cases h
  | scanRead rel read =>
    simp only [step] at h
    split at h
    · rw [Option.ite_none_left_eq_some] at h
      obtain ⟨ok, ⟨⟩⟩ := h
      obtain ⟨-, read_⟩ := not_or.mp ok
      exact .fileCompared ‹_› ‹_› (not_not.mp read_)
    · cases h
  | inputStat rel =>
    simp only [step] at h
    split at h
    · split_ifs at h with todo moved racy
      · cases h
        exact .inputMoved ‹_› ‹_›
      · cases h
        exact .inputRacy ‹_› ‹_› (not_not.mp moved)
      · cases h
        exact .inputQuiet ‹_› ‹_› (not_not.mp moved) (Bool.not_eq_true _ ▸ racy)
    · cases h
  | inputFp rel fp =>
    simp only [step] at h
    split at h
    · rw [Option.ite_none_left_eq_some] at h
      obtain ⟨ok, ⟨⟩⟩ := h
      obtain ⟨waiting, fp_⟩ := not_or.mp ok
      exact .inputCompared ‹_› (not_not.mp waiting) (not_not.mp fp_)
    · cases h
  | scanOther rel =>
    simp only [step] at h
    split at h
    · cases h
      exact .other ‹_›
    · cases h
  | scanEnd =>
    simp only [step] at h
    split at h
    · obtain ⟨complete, ⟨⟩⟩ := Option.ite_none_right_eq_some.mp h
      exact .scanEnd ‹_› complete
    · cases h
  | updateStart replan =>
    simp only [step] at h
    split at h
    · cases h
      exact .updateStart ‹_›
    · cases h
  | captureStat rel cls =>
    simp only [step] at h
    split at h
    · obtain ⟨ok, ⟨⟩⟩ := Option.ite_none_right_eq_some.mp h
      exact .capturing ‹_› ok.1
    · cases h
  | captureFp rel fp =>
    simp only [step] at h
    split at h
    · split at h
      · obtain ⟨-, ⟨⟩⟩ := Option.ite_none_right_eq_some.mp h
        exact .captured ‹_› ‹_›
      · cases h
    · cases h
  | fileStamp rel =>
    simp only [step] at h
    split at h
    · cases h
      exact .stamped ‹_›
    · cases h
  | fileRead rel cls read =>
    simp only [step] at h
    split at h
    · split at h
      · obtain ⟨ok, made⟩ := Option.ite_none_left_eq_some.mp h
        split at made
        · split_ifs at made with same
          · cases made
            obtain ⟨-, rfl, rfl⟩ := same
            exact .restamped ‹_› ‹_›
          · cases made
            exact .reread ‹_› (not_not.mp ok)
        · cases made
          exact .reread ‹_› (not_not.mp ok)
      · cases h
    · cases h
  | inputRead rel bytes =>
    simp only [step] at h
    split at h
    · obtain ⟨ok, ⟨⟩⟩ := Option.ite_none_right_eq_some.mp h
      exact .inputRead ‹_› ok
    · cases h
  | commit plan consumed todo =>
    simp only [step] at h
    split at h
    · obtain ⟨ok, ⟨⟩⟩ := Option.ite_none_right_eq_some.mp h
      refine .commit ‹_› fun e mem => ?_
      have both := List.all_eq_true.mp ok.2 e mem
      exact (Bool.and_eq_true_iff.mp both).2
    · cases h
  | refreshInput =>
    simp only [step] at h
    split at h
    · split_ifs at h with held
      · cases h
        exact .refreshKept ‹_›
      · cases h
        exact .refreshNew ‹_› (Bool.eq_false_iff.mpr held)
    · cases h
  | updateEnd =>
    simp only [step] at h
    split at h
    · cases h
      exact .dropped ‹_›
    · cases h
      exact .updateEnd ‹_›
    · cases h

end Glia.Engine.Poll
