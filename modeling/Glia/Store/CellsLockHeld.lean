import Glia.Store.CellsLock

/-! The sidecar's writers exclude each other while no stale-lock removal hits a live writer's
lock. -/
namespace Glia.Store.World

open Glia.Kit

variable {P : Type} {rows₀ : List CellRow} {w u : World P} {p : P}

/-- A holder owns the lock file, a judged lock is old, and what was read is still the file. -/
structure Guarded (rows₀ : List CellRow) (w : World P) : Prop where
  owned : ∀ p job since stage, w.phase p = .holding job since stage →
    w.lock = some ⟨some p, since⟩ ∧ w.now - since < lockStaleAfter
  judged : ∀ p job attempt l, w.phase p = .removing job attempt l →
    lockStaleAfter < w.now - l.made
  loaded : ∀ p job since rows, w.phase p = .holding job since (.loaded rows) → rows = w.cells
  replayed : w.cells = w.commits.foldl (fun rows c => c.apply rows) rows₀

def Outside (w : World P) (phase : Phase P) : Prop :=
  phase.isHolding = false ∧
    ∀ job attempt l, phase = .removing job attempt l → lockStaleAfter < w.now - l.made

theorem outside_retry (w : World P) (job : Job) (attempt : Nat) : Outside w (retry job attempt) := by
  rw [retry]
  split
  · exact ⟨rfl, fun _ _ _ eq => (nomatch eq)⟩
  · exact ⟨rfl, fun _ _ _ eq => (nomatch eq)⟩

namespace Guarded

theorem initial (h : w.Initial) : Guarded w.cells w where
  owned p job since stage eq := by
    rw [h.idle] at eq
    cases eq
  judged p job attempt l eq := by
    rw [h.idle] at eq
    cases eq
  loaded p job since rows eq := by
    rw [h.idle] at eq
    cases eq
  replayed := by
    rw [h.commits]
    rfl

theorem exclusive (h : Guarded rows₀ w) : w.Exclusive := by
  intro p q holdsP holdsQ
  cases eqP : w.phase p with
  | holding job since stage =>
    cases eqQ : w.phase q with
    | holding job' since' stage' =>
      have same := (h.owned p _ _ _ eqP).1.symm.trans (h.owned q _ _ _ eqQ).1
      cases same
      rfl
    | _ =>
      rw [eqQ] at holdsQ
      cases holdsQ
  | _ =>
    rw [eqP] at holdsP
    cases holdsP

theorem kept (h : Guarded rows₀ w) : w.Kept := by
  intro before row later eq apart
  rw [h.replayed, eq, List.foldl_append]
  exact Commit.stored_mem _ apart

theorem tick (h : Guarded rows₀ w) {d : Nat} (timely : w.Timely (.tick d)) :
    Guarded rows₀ { w with now := w.now + d } where
  owned q job since stage eq := ⟨(h.owned q job since stage eq).1, timely q job since stage eq⟩
  judged q job attempt l eq := by
    have old := h.judged q job attempt l eq
    dsimp only
    omega
  loaded := h.loaded
  replayed := h.replayed

variable [DecidableEq P]

/-- A process leaves the lock, or moves outside it, while the file stays as it is. -/
theorem leave (h : Guarded rows₀ w) {phase : Phase P} {lock : Option (LockFile P)}
    (outside : Outside w phase)
    (others : ∀ q, q ≠ p → (w.phase q).isHolding → lock = w.lock) :
    Guarded rows₀ { w.set p phase with lock := lock } where
  owned q job since stage eq := by
    dsimp only [set] at eq ⊢
    by_cases here : q = p
    · rw [here, Function.update_self] at eq
      rw [eq] at outside
      cases outside.1
    · rw [Function.update_of_ne here] at eq
      rw [others q here (by rw [eq]; rfl)]
      exact h.owned q job since stage eq
  judged q job attempt l eq := by
    dsimp only [set] at eq ⊢
    by_cases here : q = p
    · rw [here, Function.update_self] at eq
      exact outside.2 job attempt l eq
    · rw [Function.update_of_ne here] at eq
      exact h.judged q job attempt l eq
  loaded q job since rows eq := by
    dsimp only [set] at eq ⊢
    by_cases here : q = p
    · rw [here, Function.update_self] at eq
      rw [eq] at outside
      cases outside.1
    · rw [Function.update_of_ne here] at eq
      exact h.loaded q job since rows eq
  replayed := h.replayed

theorem move (h : Guarded rows₀ w) {phase : Phase P} (outside : Outside w phase) :
    Guarded rows₀ (w.set p phase) := h.leave outside fun _ _ _ => rfl

/-- With no lock file nobody holds it, so its creator is alone. -/
theorem enter (h : Guarded rows₀ w) (free : w.lock = none) (job : Job) :
    Guarded rows₀ { w.set p (.holding job w.now .entered) with lock := some ⟨some p, w.now⟩ } where
  owned q job' since stage eq := by
    dsimp only [set] at eq ⊢
    by_cases here : q = p
    · rw [here, Function.update_self] at eq
      cases eq
      rw [here, Nat.sub_self]
      exact ⟨rfl, by decide⟩
    · rw [Function.update_of_ne here] at eq
      have held := (h.owned q job' since stage eq).1
      rw [free] at held
      cases held
  judged q job' attempt l eq := by
    dsimp only [set] at eq ⊢
    by_cases here : q = p
    · rw [here, Function.update_self] at eq
      cases eq
    · rw [Function.update_of_ne here] at eq
      exact h.judged q job' attempt l eq
  loaded q job' since rows eq := by
    dsimp only [set] at eq ⊢
    by_cases here : q = p
    · rw [here, Function.update_self] at eq
      cases eq
    · rw [Function.update_of_ne here] at eq
      exact h.loaded q job' since rows eq
  replayed := h.replayed

theorem advance (h : Guarded rows₀ w) {job : Job} {since : Nat} {stage stage' : Stage}
    (holds : w.phase p = .holding job since stage) {cells : List CellRow} {commits : List Commit}
    (read : ∀ rows, stage' = .loaded rows → rows = cells)
    (replayed : cells = commits.foldl (fun rows c => c.apply rows) rows₀) :
    Guarded rows₀ { w.set p (.holding job since stage') with cells := cells, commits := commits } where
  owned q job' since' stage eq := by
    dsimp only [set] at eq ⊢
    by_cases here : q = p
    · rw [here, Function.update_self] at eq
      cases eq
      rw [here]
      exact h.owned p _ _ _ holds
    · rw [Function.update_of_ne here] at eq
      exact h.owned q job' since' stage eq
  judged q job' attempt l eq := by
    dsimp only [set] at eq ⊢
    by_cases here : q = p
    · rw [here, Function.update_self] at eq
      cases eq
    · rw [Function.update_of_ne here] at eq
      exact h.judged q job' attempt l eq
  loaded q job' since' rows eq := by
    dsimp only [set] at eq ⊢
    by_cases here : q = p
    · rw [here, Function.update_self] at eq
      cases eq
      exact read rows rfl
    · rw [Function.update_of_ne here] at eq
      exact absurd (h.exclusive q p (by rw [eq]; rfl) (by rw [holds]; rfl)) here
  replayed := replayed

theorem removed_unheld (h : Guarded rows₀ w) {job : Job} {attempt : Nat} {judged : LockFile P}
    (removing : w.phase p = .removing job attempt judged) (rechecked : w.Rechecked (.remove p))
    (q : P) : (w.phase q).isHolding = false := by
  cases eq : w.phase q with
  | holding job' since stage =>
    obtain ⟨held, young⟩ := h.owned q _ _ _ eq
    by_cases same : (⟨some q, since⟩ : LockFile P) = judged
    · have old := h.judged p _ _ _ removing
      rw [← same] at old
      dsimp only at old
      omega
    · have out := rechecked job attempt judged removing _ held same q rfl
      rw [eq] at out
      exact out
  | _ => rfl

theorem step (h : Guarded rows₀ w) {a : Act P} (timely : w.Timely a) (rechecked : w.Rechecked a)
    (taken : w.step a = some u) : Guarded rows₀ u := by
  cases a with
  | tick d =>
    cases taken
    exact h.tick timely
  | start p job =>
    rw [World.step] at taken
    split at taken <;> cases taken
    exact h.move ⟨rfl, fun _ _ _ eq => (nomatch eq)⟩
  | create p =>
    rw [World.step] at taken
    split at taken
    · split at taken <;> cases taken
      · rename_i free
        exact h.enter free _
      · exact h.move ⟨rfl, fun _ _ _ eq => (nomatch eq)⟩
    · cases taken
  | check p =>
    rw [World.step] at taken
    split at taken
    · split at taken
      · split at taken <;> cases taken
        · rename_i old
          refine h.move ⟨rfl, fun _ _ _ eq => ?_⟩
          cases eq
          exact old
        · exact h.move (outside_retry w _ _)
      · cases taken
        exact h.move (outside_retry w _ _)
    · cases taken
  | remove p =>
    rw [World.step] at taken
    split at taken <;> cases taken
    rename_i removing
    refine h.leave (outside_retry w _ _) fun q _ holds => ?_
    rw [h.removed_unheld removing rechecked q] at holds
    cases holds
  | load p =>
    rw [World.step] at taken
    split at taken <;> cases taken
    rename_i holds
    refine h.advance holds (fun rows eq => ?_) h.replayed
    cases eq
    rfl
  | save p =>
    rw [World.step] at taken
    split at taken
    · rename_i holds
      split at taken <;> cases taken
      · refine h.advance holds (fun _ eq => (nomatch eq)) ?_
        rw [List.foldl_append, ← h.replayed, h.loaded _ _ _ _ holds]
        rfl
      · exact h.advance holds (fun _ eq => (nomatch eq)) h.replayed
    · cases taken
  | drop p =>
    rw [World.step] at taken
    split at taken <;> cases taken
    rename_i holds
    refine h.leave ⟨rfl, fun _ _ _ eq => (nomatch eq)⟩ fun q apart holds' => ?_
    exact absurd (h.exclusive q p holds' (by rw [holds]; rfl)) apart
  | crash p =>
    cases taken
    exact h.move ⟨rfl, fun _ _ _ eq => (nomatch eq)⟩

end Guarded

/-- In a run whose stale-lock removals never hit a lock a live writer holds, at most one process
is between take and drop, the file is its saves in order, and no saved row is lost. -/
theorem exclusive_run [DecidableEq P] {acts : List (Act P)} (initial : w.Initial)
    (run : Run World.step (fun w a => w.Timely a ∧ w.Rechecked a) w acts u) :
    u.Exclusive ∧ u.cells = u.commits.foldl (fun rows c => c.apply rows) w.cells ∧ u.Kept := by
  have guarded : Guarded w.cells u := run.inv (Guarded.initial initial)
    fun _ _ _ h ok taken => h.step ok.1 ok.2 taken
  exact ⟨guarded.exclusive, guarded.replayed, guarded.kept⟩

def sampleRow (qname : String) : CellRow where
  qname := qname
  cell := "DECISION"
  entry := .obj [("id", .str "d1"), ("source", .str "api"), ("text", .str "why")]

def sampleJob (qname : String) : Job := .write fun _ => some (sampleRow qname)

/-- Two writers and a lock file a crashed one left. -/
def sample : World Bool where
  now := lockStaleAfter + 1
  lock := some ⟨none, 0⟩
  phase _ := .idle
  cells := []
  commits := []

theorem sample_initial : sample.Initial := ⟨fun _ => rfl, by rintro l ⟨⟩; rfl, rfl⟩

/-- Both judge the old lock, and the second removes the lock the first has taken since. -/
def sampleActs : List (Act Bool) :=
  [.start false (sampleJob "a"), .start true (sampleJob "b"), .create false, .create true,
    .check false, .check true, .remove false, .create false, .load false, .remove true,
    .create true, .load true]

theorem sample_race :
    sample.Initial ∧
    (∃ acts u, Run step (fun w a => w.Timely a) sample acts u ∧ ¬u.Exclusive) ∧
    ∃ acts u, Run step (fun w a => w.Timely a) sample acts u ∧ (∀ p, u.phase p = .idle) ∧ ¬u.Kept := by
  refine ⟨sample_initial, ⟨sampleActs, ?_⟩,
    ⟨sampleActs ++ [.save false, .drop false, .save true, .drop true], ?_⟩⟩
  · refine ⟨_, .of_foldlM (by simp [sampleActs, Timely]) rfl, fun exclusive => ?_⟩
    have same := exclusive false true rfl rfl
    cases same
  · refine ⟨_, .of_foldlM (by simp [sampleActs, Timely]) rfl, ?_, fun kept => ?_⟩
    · intro p
      cases p <;> rfl
    · have lost := kept [] (sampleRow "a") [.stored (sampleRow "b")] rfl (by decide)
      have key : rowKey (sampleRow "a") ∈ [rowKey (sampleRow "b")] := List.mem_map_of_mem lost
      revert key
      decide

/-- The second writer waits while the first holds the lock, then writes too. -/
theorem sample_waits :
    ∃ acts u, Run step (fun w a => w.Timely a ∧ w.Rechecked a) { sample with lock := none } acts u ∧
      u.commits.length = 2 ∧ u.Exclusive ∧ u.Kept := by
  have run : Run step (fun w a => w.Timely a ∧ w.Rechecked a) { sample with lock := none }
      [.start false (sampleJob "a"), .start true (sampleJob "b"), .create false, .create true,
        .check true, .load false, .save false, .drop false, .create true, .load true, .save true,
        .drop true] _ := .of_foldlM (by simp [Timely, Rechecked]) rfl
  have all := exclusive_run ⟨fun _ => rfl, by rintro l ⟨⟩, rfl⟩ run
  exact ⟨_, _, run, rfl, all.1, all.2.2⟩

end Glia.Store.World
