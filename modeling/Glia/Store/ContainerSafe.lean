import Glia.Store.ContainerOpens
import Glia.Store.Payloads

/-! A file is taken exactly when its preamble and its section table are safe. -/
namespace Glia.Store

open Glia.Kit (Attempt)
open Glia.Kit.Attempt (plus minus index exactly wordLimit Ends)
open Glia.Kit.Wire

section Preamble

def leAt {ε : Type} (bytes : Bytes) (at_ len : Nat) : Attempt ε Nat := do
  let stop_ ← plus at_ len
  let part ← index bytes at_ stop_
  let copy ← exactly part len
  pure (word copy)

def opensRun (bytes : Bytes) : Attempt StoreError Bool :=
  if bytes.length < 8 then pure false
  else do
    let front ← index bytes 0 8
    pure (decide (front = preambleMagic))

def splitFileRun (bytes : Bytes) : Attempt StoreError ByteRange := do
  let opens ← opensRun bytes
  if opens = false then throw (.oldFormat none)
  else if bytes.length < preambleLen then
    throw (.corrupt s!"truncated preamble ({bytes.length} of {preambleLen} bytes)")
  else
    let version ← leAt bytes 8 4
    if version < formatVersion then throw (.oldFormat (some version))
    else if version > formatVersion then throw (.futureFormat version)
    else
      let start ← leAt bytes 16 8
      let len ← leAt bytes 24 8
      let outOfFile := StoreError.corrupt
        s!"core range {start}+{len} lies outside the {bytes.length}-byte file"
      if usizeLimit ≤ start + len then throw outOfFile
      else if start < preambleLen ∨ start + len > bytes.length then throw outOfFile
      else if start % coreAlign ≠ 0 then
        throw (.corrupt s!"core offset {start} is not {coreAlign}-byte aligned")
      else pure ⟨start, start + len⟩

theorem leAt_run {ε : Type} {bytes : Bytes} {at_ len : Nat} (inside : at_ + len ≤ bytes.length)
    (small : bytes.length < allocationLimit) :
    (leAt bytes at_ len : Attempt ε Nat).run = some (.ok (word (slice bytes at_ len))) := by
  have limits : allocationLimit ≤ wordLimit := by decide
  have part : slice bytes at_ (at_ + len - at_) = slice bytes at_ len := by
    rw [Nat.add_sub_cancel_left]
  have long : (slice bytes at_ len).length = len := length_slice inside
  rw [leAt, plus, if_pos (by omega), pure_bind, index, if_pos ⟨Nat.le_add_right _ _, inside⟩,
    pure_bind, part, exactly, if_pos long, pure_bind]
  rfl

theorem opensRun_eq (bytes : Bytes) :
    opensRun bytes = pure (decide (bytes.take 8 = preambleMagic)) := by
  rw [opensRun]
  by_cases short : bytes.length < 8
  · have apart : bytes.take 8 ≠ preambleMagic := by
      intro same
      have long := congrArg List.length same
      rw [List.length_take, show preambleMagic.length = 8 from rfl] at long
      omega
    rw [if_pos short, decide_eq_false apart]
  · rw [if_neg short, index, if_pos ⟨Nat.zero_le _, Nat.le_of_not_lt short⟩, pure_bind]
    rfl

theorem splitFileRun_eq {bytes : Bytes} (small : bytes.length < allocationLimit) :
    (splitFileRun bytes).run = some (splitFile bytes) := by
  rw [splitFileRun, opensRun_eq, pure_bind, splitFile]
  by_cases magic : bytes.take 8 = preambleMagic
  · rw [decide_eq_true magic, if_neg Bool.noConfusion, if_neg (not_not.mpr magic)]
    by_cases short : bytes.length < preambleLen
    · rw [if_pos short, if_pos short]
      rfl
    · have len : preambleLen = 32 := rfl
      rw [if_neg short, if_neg short, ExceptT.run_bind, leAt_run (by omega) small]
      dsimp only [Option.bind_eq_bind, Option.bind_some]
      by_cases older : word (slice bytes 8 4) < formatVersion
      · rw [if_pos older, if_pos older]
        rfl
      · rw [if_neg older, if_neg older]
        by_cases newer : word (slice bytes 8 4) > formatVersion
        · rw [if_pos newer, if_pos newer]
          rfl
        · rw [if_neg newer, if_neg newer, ExceptT.run_bind, leAt_run (by omega) small]
          dsimp only [Option.bind_eq_bind, Option.bind_some]
          rw [ExceptT.run_bind, leAt_run (by omega) small]
          dsimp only [Option.bind_eq_bind, Option.bind_some]
          have limits : allocationLimit ≤ usizeLimit := by decide
          by_cases past : usizeLimit ≤ word (slice bytes 16 8) + word (slice bytes 24 8)
          · rw [if_pos past, if_pos (.inr (by omega))]
            rfl
          · rw [if_neg past]
            split
            · rfl
            · split <;> rfl
  · rw [decide_eq_false magic, if_pos rfl, if_pos magic]
    rfl

structure Names (bytes : Bytes) (core : ByteRange) : Prop where
  magic : bytes.take 8 = preambleMagic
  whole : preambleLen ≤ bytes.length
  version : word (slice bytes 8 4) = formatVersion
  start : word (slice bytes 16 8) = core.start
  stop : core.start + word (slice bytes 24 8) = core.stop
  after : preambleLen ≤ core.start
  inside : core.stop ≤ bytes.length
  aligned : core.start % coreAlign = 0

theorem splitFile_ok_iff {bytes : Bytes} {core : ByteRange} :
    splitFile bytes = .ok core ↔ Names bytes core := by
  constructor
  · intro ok
    rw [splitFile] at ok
    split at ok
    · cases ok
    · rename_i magic
      split at ok
      · cases ok
      · rename_i whole
        dsimp only at ok
        split at ok
        · cases ok
        · rename_i older
          split at ok
          · cases ok
          · rename_i newer
            split at ok
            · cases ok
            · rename_i within
              split at ok
              · cases ok
              · rename_i aligned
                obtain rfl := Except.ok.inj ok
                rw [not_or] at within
                exact ⟨not_not.mp magic, Nat.le_of_not_lt whole, by omega, rfl, rfl,
                  Nat.le_of_not_lt within.1, Nat.le_of_not_lt within.2, not_not.mp aligned⟩
  · intro names
    have version := names.version
    have stop := names.stop
    rw [splitFile, if_neg (not_not.mpr names.magic), if_neg (Nat.not_lt.mpr names.whole)]
    dsimp only
    rw [names.start, if_neg (by omega), if_neg (by omega), stop,
      if_neg (not_or.mpr ⟨Nat.not_lt.mpr names.after, Nat.not_lt.mpr names.inside⟩),
      if_neg (not_not.mpr names.aligned)]

end Preamble

section Table

/-- Aligned sections in order, none over another, between the preamble and the core, each
with a name of its own. -/
structure TableSafe (coreStart : Nat) (entries : List SectionEntry) : Prop where
  within : ∀ e ∈ entries, preambleLen ≤ e.offset ∧ e.offset + e.len ≤ coreStart
  aligned : ∀ e ∈ entries, e.offset % coreAlign = 0
  ordered : entries.Pairwise fun a b => a.offset + a.len ≤ b.offset
  named : (entries.map (·.name)).Nodup

def SectionEntry.resolved (e : SectionEntry) : String × ByteRange :=
  (e.name, ⟨e.offset, e.offset + e.len⟩)

/-- What is left of a safe table after `out`, which ends at `prevEnd`. -/
structure RestSafe (coreStart : Nat) (out : List (String × ByteRange)) (prevEnd : Nat)
    (entries : List SectionEntry) : Prop where
  within : ∀ e ∈ entries, prevEnd ≤ e.offset ∧ e.offset + e.len ≤ coreStart
  aligned : ∀ e ∈ entries, e.offset % coreAlign = 0
  ordered : entries.Pairwise fun a b => a.offset + a.len ≤ b.offset
  named : (out.map (·.1) ++ entries.map (·.name)).Nodup

theorem RestSafe.cons_iff {coreStart prevEnd : Nat} {out : List (String × ByteRange)}
    {e : SectionEntry} {entries : List SectionEntry} :
    RestSafe coreStart out prevEnd (e :: entries) ↔
      (prevEnd ≤ e.offset ∧ e.offset + e.len ≤ coreStart) ∧ e.offset % coreAlign = 0 ∧
        (∀ p ∈ out, p.1 ≠ e.name) ∧
        RestSafe coreStart (out ++ [e.resolved]) (e.offset + e.len) entries := by
  have names : (out ++ [e.resolved]).map (·.1) ++ entries.map (·.name) =
      out.map (·.1) ++ (e :: entries).map (·.name) := by
    rw [List.map_append, List.append_assoc]
    rfl
  constructor
  · intro safe
    obtain ⟨first, rest⟩ := List.pairwise_cons.mp safe.ordered
    refine ⟨safe.within e List.mem_cons_self, safe.aligned e List.mem_cons_self, ?_, ?_, ?_, rest,
      names ▸ safe.named⟩
    · intro p mem same
      exact (List.nodup_append.mp safe.named).2.2 p.1 (List.mem_map_of_mem mem) e.name
        List.mem_cons_self same
    · intro f mem
      exact ⟨first f mem, (safe.within f (List.mem_cons_of_mem e mem)).2⟩
    · exact fun f mem => safe.aligned f (List.mem_cons_of_mem e mem)
  · rintro ⟨inside, aligned, -, rest⟩
    refine ⟨?_, ?_, ?_, names ▸ rest.named⟩
    · intro f mem
      obtain rfl | mem := List.mem_cons.mp mem
      · exact inside
      · have after := rest.within f mem
        exact ⟨by omega, after.2⟩
    · intro f mem
      obtain rfl | mem := List.mem_cons.mp mem
      · exact aligned
      · exact rest.aligned f mem
    · exact List.pairwise_cons.mpr ⟨fun f mem => (rest.within f mem).1, rest.ordered⟩

theorem resolveFrom_ok_iff' {coreStart : Nat} (small : coreStart < usizeLimit)
    (entries : List SectionEntry) {out res : List (String × ByteRange)} {prevEnd : Nat}
    (apart : (out.map (·.1)).Nodup) :
    resolveFrom coreStart out prevEnd entries = .ok res ↔
      RestSafe coreStart out prevEnd entries ∧ res = out ++ entries.map SectionEntry.resolved := by
  induction entries generalizing out prevEnd with
  | nil =>
    rw [resolveFrom, List.map_nil, List.append_nil]
    constructor
    · intro ok
      exact ⟨⟨by simp, by simp, List.Pairwise.nil, by simpa using apart⟩, (Except.ok.inj ok).symm⟩
    · rintro ⟨-, rfl⟩
      rfl
  | cons e entries ih =>
    have same : out ++ (e :: entries).map SectionEntry.resolved =
        out ++ [e.resolved] ++ entries.map SectionEntry.resolved := by
      rw [List.append_assoc]
      rfl
    rw [RestSafe.cons_iff, same, resolveFrom]
    split
    · rename_i past
      apply iff_of_false fun ok => by cases ok
      rintro ⟨⟨inside, -⟩, -⟩
      omega
    · split
      · rename_i outside
        apply iff_of_false fun ok => by cases ok
        rintro ⟨⟨inside, -⟩, -⟩
        omega
      · rename_i inside
        split
        · rename_i skew
          apply iff_of_false fun ok => by cases ok
          rintro ⟨⟨-, aligned, -⟩, -⟩
          exact skew aligned
        · rename_i aligned
          split
          · rename_i taken
            apply iff_of_false fun ok => by cases ok
            rintro ⟨⟨-, -, fresh, -⟩, -⟩
            obtain ⟨p, mem, here⟩ := List.any_eq_true.mp taken
            exact fresh p mem (beq_iff_eq.mp here)
          · rename_i free
            have fresh : ∀ p ∈ out, p.1 ≠ e.name := by
              intro p mem here
              exact free (List.any_eq_true.mpr ⟨p, mem, beq_iff_eq.mpr here⟩)
            have next : ((out ++ [e.resolved]).map (·.1)).Nodup := by
              rw [List.map_append, List.nodup_append]
              refine ⟨apart, List.nodup_singleton _, ?_⟩
              intro a mem b last
              obtain ⟨p, held, rfl⟩ := List.mem_map.mp mem
              rw [List.map_singleton, List.mem_singleton] at last
              exact last ▸ fresh p held
            have step := @ih (out ++ [e.resolved]) (e.offset + e.len) next
            refine step.trans ?_
            constructor
            · rintro ⟨rest, eq⟩
              exact ⟨⟨by omega, not_not.mp aligned, fresh, rest⟩, eq⟩
            · rintro ⟨⟨-, -, -, rest⟩, eq⟩
              exact ⟨rest, eq⟩

theorem resolveFrom_ok_iff {coreStart : Nat} (small : coreStart < usizeLimit)
    (entries : List SectionEntry) (res : List (String × ByteRange)) :
    resolveFrom coreStart [] preambleLen entries = .ok res ↔
      TableSafe coreStart entries ∧ res = entries.map SectionEntry.resolved := by
  rw [resolveFrom_ok_iff' small entries
    (show (([] : List (String × ByteRange)).map (·.1)).Nodup from List.nodup_nil)]
  constructor
  · rintro ⟨rest, eq⟩
    exact ⟨⟨rest.within, rest.aligned, rest.ordered, rest.named⟩, eq⟩
  · rintro ⟨safe, eq⟩
    exact ⟨⟨safe.within, safe.aligned, safe.ordered, safe.named⟩, eq⟩

end Table

section Read

def MmapContainer.sectionRead (m : MmapContainer) (name : String) :
    Except StoreError (Option Bytes) :=
  match m.sections.find? fun p => p.1 == name with
  | none => .ok none
  | some (_, range) =>
    if range.start ≤ range.stop ∧ range.stop ≤ m.bytes.length then .ok (some (range.of m.bytes))
    else .error (.corrupt
      s!"section '{name}' range {range.start}..{range.stop} outside the mapped file")

theorem sectionRead_safe {bytes : Bytes} {core : ByteRange} (names : Names bytes core)
    {entries : List SectionEntry} (safe : TableSafe core.start entries) (name : String) :
    (MmapContainer.mk bytes core (entries.map SectionEntry.resolved)).sectionRead name =
      .ok ((MmapContainer.mk bytes core
        (entries.map SectionEntry.resolved)).sectionBytes name) := by
  rw [MmapContainer.sectionRead, MmapContainer.sectionBytes]
  dsimp only
  cases found : (entries.map SectionEntry.resolved).find? fun p => p.1 == name with
  | none => rfl
  | some p =>
    obtain ⟨e, mem, rfl⟩ := List.mem_map.mp (List.mem_of_find?_eq_some found)
    have inside := (safe.within e mem).2
    have stop := names.stop
    have whole := names.inside
    dsimp only [SectionEntry.resolved]
    rw [if_pos ⟨Nat.le_add_right _ _, by omega⟩]
    rfl

end Read

section Result

/-- What every file's bytes meet: each read stays inside, and what is taken is safe. -/
structure ReadSafely (r : Rkyv Container) (bytes : Bytes) : Prop where
  noStop : (splitFileRun bytes).run = some (splitFile bytes)
  split : ∀ core, splitFile bytes = .ok core ↔ Names bytes core
  table : ∀ core c, splitFile bytes = .ok core → archivedIn r bytes core = .ok c → ∀ res,
    resolveFrom core.start [] preambleLen c.sections = .ok res ↔
      TableSafe core.start c.sections ∧ res = c.sections.map SectionEntry.resolved
  sections : ∀ core c res, splitFile bytes = .ok core → archivedIn r bytes core = .ok c →
    resolveFrom core.start [] preambleLen c.sections = .ok res → ∀ name,
      (MmapContainer.mk bytes core res).sectionRead name =
        .ok ((MmapContainer.mk bytes core res).sectionBytes name)

theorem readSafely (r : Rkyv Container) {bytes : Bytes} (small : bytes.length < allocationLimit) :
    ReadSafely r bytes := by
  have bound : ∀ core, splitFile bytes = .ok core → core.start < usizeLimit := by
    intro core ok
    have names := splitFile_ok_iff.mp ok
    have stop := names.stop
    have inside := names.inside
    have limits : allocationLimit ≤ usizeLimit := by decide
    omega
  refine ⟨splitFileRun_eq small, fun core => splitFile_ok_iff, ?_, ?_⟩
  · intro core c ok _ res
    exact resolveFrom_ok_iff (bound core ok) c.sections res
  · intro core c res ok _ resolved name
    obtain ⟨safe, rfl⟩ := (resolveFrom_ok_iff (bound core ok) c.sections res).mp resolved
    exact sectionRead_safe (splitFile_ok_iff.mp ok) safe name

/-- The section table is taken exactly when it is safe, every file written is taken whole, and
no payload is read past its end. -/
theorem section_table_safe (r : Rkyv Container) (lossless : r.Lossless) :
    (∀ bytes : Bytes, bytes.length < allocationLimit → ReadSafely r bytes) ∧
      (∀ core sections bytes, encodeFile r core sections = .ok bytes →
        ∃ range table, splitFile bytes = .ok range ∧
          archivedIn r bytes range = .ok (core.settled table) ∧
          table.map (·.name) = sections.map (·.name) ∧ (table.map (·.name)).Nodup ∧
          resolveFrom range.start [] preambleLen table =
            .ok (table.map SectionEntry.resolved) ∧
          ∀ name, (MmapContainer.mk bytes range (table.map SectionEntry.resolved)).sectionBytes
            name = (sections.find? fun s => s.name == name).map (·.bytes)) ∧
      ∀ (payload : Bytes) (tableLen : Nat) (string : Nat → Option String),
        payload.length < allocationLimit →
          (∃ out, (decodeEvidence tableLen string payload).run = some out) ∧
            ∃ out, (CodeSpan.decode tableLen string payload).run = some out := by
  refine ⟨fun bytes small => readSafely r small, ?_, ?_⟩
  · intro core sections bytes ok
    exact encodeFile_reads lossless ok
  · intro payload tableLen string small
    obtain ⟨out, ran, -⟩ := decodeEvidence_ends tableLen string small
    obtain ⟨out', ran', -⟩ := CodeSpan.decode_ends small tableLen string
    exact ⟨⟨out, ran⟩, out', ran'⟩

/-- A core of one node, and its file's one section. -/
def oneNode : Container where
  header := .new Header.codeGraphType
  repo := 1
  nodes := [⟨7, 1, .strong, []⟩]
  edges := []
  nodeKinds := [(7, 1)]

def oneSection : List EncodedSection := [⟨"code", [1, 2, 3]⟩]

def oneArchive : Rkyv Container where
  toBytes c := if c = oneNode.settled [⟨"code", 32, 3⟩] then some [9] else none
  access b := if b = [9] then some (oneNode.settled [⟨"code", 32, 3⟩]) else none

theorem oneArchive_lossless : oneArchive.Lossless := by
  intro c b archived
  rw [oneArchive] at archived ⊢
  dsimp only at archived ⊢
  split at archived
  · rename_i same
    cases archived
    rw [if_pos rfl, same]
  · cases archived

theorem section_table_safe_one : ∃ bytes range table,
    encodeFile oneArchive oneNode oneSection = .ok bytes ∧ splitFile bytes = .ok range ∧
      archivedIn oneArchive bytes range = .ok (oneNode.settled table) ∧
      (MmapContainer.mk bytes range (table.map SectionEntry.resolved)).sectionBytes "code" =
        some [1, 2, 3] := by
  have written : encodeFile oneArchive oneNode oneSection = .ok (preamble 48 1 ++ [1, 2, 3] ++
      List.replicate 13 0 ++ [9]) := by decide +kernel
  obtain ⟨range, table, split, read, -, -, -, held⟩ :=
    (section_table_safe oneArchive oneArchive_lossless).2.1 _ _ _ written
  exact ⟨_, range, table, written, split, read, held "code"⟩

end Result

end Glia.Store
