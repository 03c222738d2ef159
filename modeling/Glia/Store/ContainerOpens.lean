import Glia.Store.Container

/-! Every file the writer encodes opens, and reads back as the core and the sections it was
encoded from. -/
namespace Glia.Store

open Glia.Kit.Wire

theorem alignUp_ok {at_ up : Nat} (ok : alignUp at_ = .ok up) :
    at_ ≤ up ∧ up % coreAlign = 0 ∧ up < usizeLimit := by
  rw [alignUp] at ok
  split at ok
  · rename_i small
    cases ok
    have step : coreAlign = 16 := rfl
    rw [step] at small ⊢
    exact ⟨by omega, Nat.mul_mod_left _ _, small⟩
  · cases ok

inductive Laid : Nat → List EncodedSection → List SectionEntry → Nat → Prop where
  | nil (at_ : Nat) : Laid at_ [] [] at_
  | cons {at_ start stop : Nat} {s : EncodedSection} {rest : List EncodedSection}
      {entries : List SectionEntry} : at_ ≤ start → start % coreAlign = 0 →
      Laid (start + s.bytes.length) rest entries stop →
      Laid at_ (s :: rest) (⟨s.name, start, s.bytes.length⟩ :: entries) stop

namespace Laid
variable {at_ stop : Nat} {sections : List EncodedSection} {entries : List SectionEntry}

theorem le (h : Laid at_ sections entries stop) : at_ ≤ stop := by
  induction h with
  | nil => exact le_rfl
  | cons after _ _ ih => omega

theorem names (h : Laid at_ sections entries stop) :
    entries.map (·.name) = sections.map (·.name) := by
  induction h with
  | nil => rfl
  | cons _ _ _ ih => rw [List.map_cons, List.map_cons, ih]

/-- Writing the sections fills the file up to where they end, each at its own offset. -/
theorem written (h : Laid at_ sections entries stop) {out : Bytes} (here : out.length = at_) :
    ∃ more, writeSections out entries sections = out ++ more ∧
      (out ++ more).length = stop ∧
      List.Forall₂ (fun (e : SectionEntry) (s : EncodedSection) =>
        e.offset + e.len ≤ stop ∧ slice (out ++ more) e.offset e.len = s.bytes)
        entries sections := by
  induction h generalizing out with
  | nil =>
    refine ⟨[], ?_, ?_, .nil⟩
    · rw [List.append_nil]
      rfl
    · rw [List.append_nil, here]
  | @cons at_ start stop s rest entries after aligned laid ih =>
    have grown : resize 0 out start = out ++ List.replicate (start - out.length) 0 :=
      resize_eq 0 (by omega)
    have ends : (resize 0 out start ++ s.bytes).length = start + s.bytes.length := by
      rw [List.length_append, length_resize]
    obtain ⟨more, eq, length, held⟩ := ih ends
    refine ⟨List.replicate (start - out.length) 0 ++ s.bytes ++ more, ?_, ?_, ?_⟩
    · rw [writeSections, List.zip_cons_cons, List.foldl_cons]
      rw [writeSections] at eq
      rw [eq, grown]
      simp only [List.append_assoc]
    · rw [← length, grown]
      simp only [List.append_assoc]
    · have same : out ++ (List.replicate (start - out.length) 0 ++ s.bytes ++ more) =
          resize 0 out start ++ s.bytes ++ more := by
        rw [grown]
        simp only [List.append_assoc]
      rw [same]
      apply List.Forall₂.cons _ held
      exact ⟨laid.le, slice_middle _ _ _ (length_resize 0 out start).symm rfl⟩

theorem resolved (h : Laid at_ sections entries stop) {coreStart prevEnd : Nat}
    {out : List (String × ByteRange)} (after : prevEnd ≤ at_) (before : stop ≤ coreStart)
    (small : coreStart < usizeLimit) (apart : (out.map (·.1) ++ entries.map (·.name)).Nodup) :
    resolveFrom coreStart out prevEnd entries =
      .ok (out ++ entries.map fun e => (e.name, ⟨e.offset, e.offset + e.len⟩)) := by
  induction h generalizing out prevEnd with
  | nil => rw [resolveFrom, List.map_nil, List.append_nil]
  | @cons at_ start stop s rest entries after' aligned laid ih =>
    have inside := laid.le
    have fresh : ¬(out.any fun p => p.1 == s.name) = true := by
      rw [List.any_eq_true]
      rintro ⟨p, mem, same⟩
      have named : p.1 ∈ out.map (·.1) := List.mem_map_of_mem mem
      rw [beq_iff_eq.mp same] at named
      exact (List.nodup_append.mp apart).2.2 _ named s.name List.mem_cons_self rfl
    rw [resolveFrom, if_neg (by dsimp only; omega), if_neg (by dsimp only; omega),
      if_neg (by dsimp only; omega), if_neg fresh, ih le_rfl before]
    · rw [List.map_cons, List.append_assoc, List.singleton_append]
    · rw [List.map_append, List.append_assoc]
      exact apart

end Laid

theorem layoutFrom_ok {table table' : List SectionEntry} {at_ core : Nat}
    {sections : List EncodedSection}
    (ok : layoutFrom table at_ sections = .ok (table', core))
    (apart : (table.map (·.name)).Nodup) :
    ∃ entries stop, table' = table ++ entries ∧ Laid at_ sections entries stop ∧
      stop ≤ core ∧ core % coreAlign = 0 ∧ core < usizeLimit ∧
      (table'.map (·.name)).Nodup := by
  induction sections generalizing table at_ with
  | nil =>
    rw [layoutFrom] at ok
    cases up : alignUp at_ with
    | error e =>
      rw [up] at ok
      cases ok
    | ok core' =>
      rw [up] at ok
      cases ok
      obtain ⟨le, aligned, small⟩ := alignUp_ok up
      exact ⟨[], at_, (List.append_nil _).symm, .nil _, le, aligned, small, apart⟩
  | cons s rest ih =>
    rw [layoutFrom] at ok
    split at ok
    · cases ok
    · rename_i fresh
      cases up : alignUp at_ with
      | error e =>
        rw [up] at ok
        cases ok
      | ok start =>
        rw [up] at ok
        dsimp only [bind, Except.bind] at ok
        split at ok
        · obtain ⟨le, aligned, _⟩ := alignUp_ok up
          have distinct : ((table ++ [SectionEntry.mk s.name start s.bytes.length]).map
              (·.name)).Nodup := by
            rw [List.map_append, List.nodup_append]
            refine ⟨apart, List.nodup_singleton _, ?_⟩
            intro a mem b last same
            obtain rfl := List.mem_singleton.mp last
            obtain ⟨e, held, named⟩ := List.mem_map.mp mem
            apply fresh
            rw [List.any_eq_true]
            exact ⟨e, held, beq_iff_eq.mpr (named.trans same)⟩
          obtain ⟨entries, stop, rfl, laid, rest⟩ := ih ok distinct
          refine ⟨_, stop, ?_, .cons le aligned laid, rest⟩
          rw [List.append_assoc, List.singleton_append]
        · cases ok

theorem length_preamble (coreOffset coreLen : Nat) :
    (preamble coreOffset coreLen).length = preambleLen := by
  simp only [preamble, List.length_append, length_le]
  rfl

theorem splitFile_preamble {coreOffset coreLen : Nat} {body : Bytes}
    (starts : preambleLen ≤ coreOffset) (aligned : coreOffset % coreAlign = 0)
    (ends : coreOffset + coreLen ≤ preambleLen + body.length)
    (small : coreOffset + coreLen < usizeLimit) :
    splitFile (preamble coreOffset coreLen ++ body) = .ok ⟨coreOffset, coreOffset + coreLen⟩ := by
  have size : (preamble coreOffset coreLen ++ body).length = preambleLen + body.length := by
    rw [List.length_append, length_preamble]
  have field : ∀ (start len n : Nat) (front back : Bytes), n < 256 ^ len →
      preamble coreOffset coreLen = front ++ le len n ++ back → front.length = start →
      word (slice (preamble coreOffset coreLen ++ body) start len) = n := by
    intro start len n front back fits eq here
    rw [eq, List.append_assoc (front ++ le len n), slice_middle _ _ _ here.symm (length_le len n).symm,
      word_le fits]
  have limit : usizeLimit = 256 ^ 8 := by decide
  have version := field 8 4 formatVersion preambleMagic (le 4 0 ++ le 8 coreOffset ++ le 8 coreLen)
    (by decide) (by simp only [preamble, List.append_assoc]) (by decide)
  have offset := field 16 8 coreOffset (preambleMagic ++ le 4 formatVersion ++ le 4 0)
    (le 8 coreLen) (by omega) rfl (by decide)
  have len := field 24 8 coreLen
    (preambleMagic ++ le 4 formatVersion ++ le 4 0 ++ le 8 coreOffset) [] (by omega)
    (by rw [List.append_nil]; rfl)
    (by simp only [List.length_append, length_le]; rfl)
  have opening : (preamble coreOffset coreLen ++ body).take 8 = preambleMagic := by
    have here : slice ([] ++ preambleMagic ++ (le 4 formatVersion ++ le 4 0 ++ le 8 coreOffset ++
        le 8 coreLen ++ body)) 0 8 = preambleMagic := slice_middle [] _ _ rfl (by decide)
    simpa only [slice, List.drop_zero, List.nil_append, preamble, List.append_assoc] using here
  rw [splitFile, if_neg (not_not.mpr opening), if_neg (by omega)]
  dsimp only
  rw [version, offset, len, if_neg (lt_irrefl _), if_neg (lt_irrefl _), if_neg (by omega),
    if_neg (by omega)]

section Open
variable {r : Rkyv Container} {core : Container} {sections : List EncodedSection} {bytes : Bytes}

theorem settled_header (core : Container) (table : List SectionEntry) :
    (core.settled table).header = core.header := rfl

theorem sectionBytes_of_forall₂ {entries : List SectionEntry} {bytes : Bytes} {range : ByteRange}
    (held : List.Forall₂ (fun (e : SectionEntry) (s : EncodedSection) =>
      slice bytes e.offset e.len = s.bytes) entries sections)
    (named : entries.map (·.name) = sections.map (·.name)) (name : String) :
    (MmapContainer.mk bytes range
      (entries.map fun e => (e.name, ⟨e.offset, e.offset + e.len⟩))).sectionBytes name =
      (sections.find? fun s => s.name == name).map (·.bytes) := by
  rw [MmapContainer.sectionBytes]
  induction held with
  | nil => rfl
  | @cons e s entries sections here _ ih =>
    rw [List.map_cons, List.map_cons] at named
    obtain ⟨same, rest⟩ := List.cons.inj named
    rw [List.map_cons, List.find?_cons, List.find?_cons]
    dsimp only
    rw [same]
    cases s.name == name with
    | true =>
      rw [Option.map_some, Option.map_some, ByteRange.of]
      dsimp only
      rw [Nat.add_sub_cancel_left, here]
    | false => exact ih rest

theorem encodeFile_reads (lossless : r.Lossless) (ok : encodeFile r core sections = .ok bytes) :
    ∃ range table, splitFile bytes = .ok range ∧
      archivedIn r bytes range = .ok (core.settled table) ∧
      table.map (·.name) = sections.map (·.name) ∧ (table.map (·.name)).Nodup ∧
      resolveFrom range.start [] preambleLen table =
        .ok (table.map fun e => (e.name, ⟨e.offset, e.offset + e.len⟩)) ∧
      ∀ name, (MmapContainer.mk bytes range
        (table.map fun e => (e.name, ⟨e.offset, e.offset + e.len⟩))).sectionBytes name =
          (sections.find? fun s => s.name == name).map (·.bytes) := by
  rw [encodeFile] at ok
  cases laidOut : layoutSections sections with
  | error e =>
    rw [laidOut] at ok
    cases ok
  | ok result =>
    obtain ⟨table, coreOffset⟩ := result
    rw [laidOut] at ok
    dsimp only [bind, Except.bind] at ok
    cases archived : r.toBytes (core.settled table) with
    | none =>
      rw [archived] at ok
      cases ok
    | some archive =>
      rw [archived] at ok
      dsimp only at ok
      split at ok
      · rename_i fits
        obtain ⟨_, stop, rfl, laid, before, aligned, small, apart⟩ :=
          layoutFrom_ok laidOut List.nodup_nil
        obtain ⟨more, written, length, held⟩ :=
          laid.written (length_preamble coreOffset archive.length)
        have starts : preambleLen ≤ coreOffset := laid.le.trans before
        have grown := resize_eq (0 : UInt8)
          (l := preamble coreOffset archive.length ++ more) (length.trans_le before)
        rw [written] at ok
        obtain rfl := Except.ok.inj ok
        have whole : resize 0 (preamble coreOffset archive.length ++ more) coreOffset ++ archive =
            preamble coreOffset archive.length ++
              (more ++ List.replicate (coreOffset - stop) 0 ++ archive) := by
          rw [grown, length]
          simp only [List.append_assoc]
        have ends : coreOffset + archive.length ≤ preambleLen +
            (more ++ List.replicate (coreOffset - stop) 0 ++ archive).length := by
          have same := congrArg List.length whole
          rw [List.length_append, length_resize, List.length_append, length_preamble] at same
          exact same.le
        have limits : allocationLimit ≤ usizeLimit := by decide
        have split := splitFile_preamble starts aligned ends (by omega)
        have access : archivedIn r (resize 0 (preamble coreOffset archive.length ++ more)
            coreOffset ++ archive) ⟨coreOffset, coreOffset + archive.length⟩ =
            .ok (core.settled table) := by
          rw [archivedIn, ByteRange.of, slice_last _ _ (length_resize 0 _ _).symm
            (Nat.add_sub_cancel_left _ _), lossless _ _ archived]
        have resolved := @Laid.resolved _ _ _ _ laid coreOffset preambleLen [] le_rfl before small
          apart
        rw [← whole] at split
        refine ⟨_, table, split, access, laid.names, apart, resolved, ?_⟩
        apply sectionBytes_of_forall₂ _ laid.names
        apply held.imp
        intro e s inside
        rw [whole, ← List.append_assoc, ← List.append_assoc, List.append_assoc _ _ archive,
          slice_append_left (by rw [length]; exact inside.1)]
        exact inside.2
      · cases ok

theorem open_encodeFile (lossless : r.Lossless) (head : validateHeader core.header = .ok ())
    (ok : encodeFile r core sections = .ok bytes) :
    ∃ m table, MmapContainer.open_ r bytes = .ok m ∧ m.bytes = bytes ∧
      m.archived r = .ok (core.settled table) ∧
      ∀ name, m.sectionBytes name = (sections.find? fun s => s.name == name).map (·.bytes) := by
  obtain ⟨range, table, split, access, -, -, resolved, held⟩ := encodeFile_reads lossless ok
  refine ⟨⟨bytes, range, table.map fun e => (e.name, ⟨e.offset, e.offset + e.len⟩)⟩, table, ?_,
    rfl, access, held⟩
  have same : (core.settled table).sections = table := rfl
  rw [MmapContainer.open_, split]
  dsimp only [bind, Except.bind]
  rw [access]
  dsimp only
  rw [settled_header, head]
  dsimp only
  rw [same, resolved]
  rfl

end Open

end Glia.Store
