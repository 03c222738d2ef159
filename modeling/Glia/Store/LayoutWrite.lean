import Glia.Store.LayoutOpen

/-! What a layout write leaves on disk: its files first, each under its own name, and the manifest
last. -/
namespace Glia.Store

open Glia.Kit.Replay

section Names

theorem fileName_ne_manifest (name : String) : fileName name ≠ manifestName := by
  intro same
  have ends := congrArg (fun s : String => s.toList.getLast?) same
  have p : ".gmap".toList.getLast? = some 'p' := by decide
  have n : manifestName.toList.getLast? = some 'n' := by decide
  rw [fileName, String.toList_append, List.getLast?_append, p, n] at ends
  cases ends

theorem fileName_inj {a b : String} (same : fileName a = fileName b) : a = b := by
  have lists := congrArg String.toList same
  rw [fileName, fileName, String.toList_append, String.toList_append] at lists
  exact String.toList_injective (List.append_cancel_right lists)

theorem ofDigitChars_twoDigits (i : Nat) : Nat.ofDigitChars 10 (twoDigits i).toList 0 = i := by
  rw [twoDigits]
  split
  · rw [String.toList_append, Nat.toString_eq_repr, Nat.toList_repr, Nat.ofDigitChars_append]
    exact Nat.ofDigitChars_ten_toDigits
  · rw [Nat.toString_eq_repr, Nat.toList_repr]
    exact Nat.ofDigitChars_ten_toDigits

theorem dash_notMem_digits (n : Nat) : '-' ∉ (toString n).toList := by
  intro mem
  rw [Nat.toString_eq_repr, Nat.toList_repr] at mem
  have digit := Nat.isDigit_of_mem_toDigits (by decide) (by decide) mem
  revert digit
  decide

theorem dash_notMem_twoDigits (i : Nat) : '-' ∉ (twoDigits i).toList := by
  rw [twoDigits]
  split
  · rw [String.toList_append, List.mem_append, not_or]
    exact ⟨by decide, dash_notMem_digits i⟩
  · exact dash_notMem_digits i

theorem shardName_inj {count a b i j : Nat} (several : count ≠ 1)
    (same : shardName count a i = shardName count b j) : i = j := by
  have lists := congrArg String.toList same
  rw [shardName, shardName, if_neg several, if_neg several] at lists
  simp only [String.toList_append, List.append_assoc] at lists
  have tails := List.append_cancel_left lists
  have dash : "-".toList = ['-'] := by decide
  rw [dash, List.singleton_append, List.singleton_append] at tails
  have both := (List.append_cons_inj_of_notMem (dash_notMem_digits a)
    (dash_notMem_twoDigits i)).mp tails
  rw [← ofDigitChars_twoDigits i, both.2.2, ofDigitChars_twoDigits]

theorem shardName_ne_cross (count repo i : Nat) : fileName (shardName count repo i) ≠ crossStackName := by
  intro same
  have starts := congrArg (fun s : String => s.toList.head?) same
  have repo_ : "repo-".toList = 'r' :: "epo-".toList := by decide
  have cross : crossStackName.toList.head? = some 'c' := by decide
  rw [cross, fileName, shardName] at starts
  split at starts <;>
    simp only [String.toList_append, List.append_assoc, repo_, List.cons_append,
      List.head?_cons] at starts <;>
    cases starts

end Names

section Settle
variable {d : Disk} {w : Write} {listed : Bool} {path : String} {bytes : Bytes}

structure Write.Unpublished (d : Disk) (w : Write) : Prop where
  tracks : w.disk = after d w.log
  files : ∀ p ∈ w.log, p.1 ≠ manifestName

theorem Write.start_unpublished (d : Disk) : (Write.start d).Unpublished d :=
  ⟨rfl, fun _ mem => (nomatch mem)⟩

theorem Write.settle_eq (w : Write) (listed : Bool) (path : String) (bytes : Bytes) :
    w.settle listed path bytes = w ∧ w.disk path = some bytes ∨
      w.settle listed path bytes = w.replace path bytes := by
  rw [settle]
  split
  · rename_i unchanged
    rw [Bool.and_eq_true, onDiskIs, beq_iff_eq] at unchanged
    exact .inl ⟨rfl, unchanged.2⟩
  · exact .inr rfl

theorem Write.settle_disk (w : Write) (listed : Bool) (path : String) (bytes : Bytes) :
    (w.settle listed path bytes).disk = Function.update w.disk path (some bytes) := by
  rcases w.settle_eq listed path bytes with ⟨eq, there⟩ | eq
  · rw [eq, ← there, Function.update_eq_self]
  · rw [eq]
    rfl

theorem Write.Unpublished.replace (h : w.Unpublished d) (apart : path ≠ manifestName) :
    (w.replace path bytes).Unpublished d where
  tracks := by
    rw [Write.replace, h.tracks, ← after_concat]
  files := by
    intro p mem
    rcases List.mem_append.mp mem with mem | mem
    · exact h.files p mem
    · rw [List.mem_singleton.mp mem]
      exact apart

theorem Write.Unpublished.settle (h : w.Unpublished d) (apart : path ≠ manifestName) :
    (w.settle listed path bytes).Unpublished d := by
  rcases w.settle_eq listed path bytes with ⟨eq, _⟩ | eq
  · rw [eq]
    exact h
  · rw [eq]
    exact h.replace apart

theorem Write.Unpublished.shard (h : w.Unpublished d) (prior : Option Manifest) (name : String)
    (bytes : Bytes) : (writeShard prior w name bytes).Unpublished d := h.settle (fileName_ne_manifest name)

end Settle

section Files
variable {r : Rkyv Container} {G : Type} {codec : ShardCodec r G} {prior : Option Manifest}
  {d : Disk} {w : Write}

def writeShards (prior : Option Manifest) (w : Write) (files : List (String × Bytes)) : Write :=
  files.foldl (fun w f => writeShard prior w f.1 f.2) w

theorem Write.Unpublished.shards (h : w.Unpublished d) (prior : Option Manifest)
    (files : List (String × Bytes)) :
    (writeShards prior w files).Unpublished d := by
  induction files generalizing w with
  | nil => exact h
  | cons f rest ih => exact ih (h.shard prior f.1 f.2)

/-- Each file of distinct names is there when all are written, and nothing else changed. -/
theorem writeShards_disk (prior : Option Manifest) (w : Write) {files : List (String × Bytes)}
    (apart : (files.map (·.1)).Nodup) :
    (∀ f ∈ files, (writeShards prior w files).disk (fileName f.1) = some f.2) ∧
      ∀ path, (∀ f ∈ files, fileName f.1 ≠ path) →
        (writeShards prior w files).disk path = w.disk path := by
  induction files generalizing w with
  | nil => exact ⟨fun _ mem => (nomatch mem), fun _ _ => rfl⟩
  | cons f rest ih =>
    rw [List.map_cons, List.nodup_cons] at apart
    have tail := ih (writeShard prior w f.1 f.2) apart.2
    have first : (writeShard prior w f.1 f.2).disk =
        Function.update w.disk (fileName f.1) (some f.2) := w.settle_disk _ _ _
    rw [writeShards, List.foldl_cons]
    constructor
    · rw [List.forall_mem_cons]
      refine ⟨?_, tail.1⟩
      apply (tail.2 (fileName f.1) _).trans
      · rw [first, Function.update_self]
      · intro g mem same
        apply apart.1
        rw [← fileName_inj same]
        exact List.mem_map_of_mem mem
    · intro path away
      rw [List.forall_mem_cons] at away
      apply (tail.2 path away.2).trans
      rw [first, Function.update_of_ne away.1.symm]

def Encodes (codec : ShardCodec r G) : List (String × G) → List (String × Bytes) → Prop :=
  List.Forall₂ fun s f => f.1 = s.1 ∧ codec.encode s.2 = .ok f.2

theorem Encodes.names {shards : List (String × G)} {files : List (String × Bytes)}
    (h : Encodes codec shards files) : files.map (·.1) = shards.map (·.1) := by
  have named : List.Forall₂ (· = ·) (files.map (·.1)) (shards.map (·.1)) :=
    List.forall₂_map_left_iff.mpr (List.forall₂_map_right_iff.mpr
      (h.flip.imp fun _ _ both => both.1))
  rw [List.forall₂_eq_eq_eq] at named
  exact named

theorem writeCode_unpublished (codec : ShardCodec r G) (prior : Option Manifest)
    (h : w.Unpublished d) (shards : List (String × G)) :
    (writeCode codec prior w shards).1.Unpublished d := by
  induction shards generalizing w with
  | nil => exact h
  | cons s rest ih =>
    obtain ⟨name, g⟩ := s
    rw [writeCode]
    cases codec.encode g with
    | error err => exact h
    | ok bytes =>
      have tail := ih (h.shard prior name bytes)
      dsimp only
      split <;> (rename_i eq; rw [eq] at tail; exact tail)

theorem writeCode_ok {shards : List (String × G)} {w' : Write} {entries : List ShardEntry}
    (ok : writeCode codec prior w shards = (w', .ok entries)) :
    ∃ files, Encodes codec shards files ∧ w' = writeShards prior w files ∧
      entries = files.map fun f => shardEntry f.1 Header.codeGraphType f.2 := by
  induction shards generalizing w entries with
  | nil =>
    cases ok
    exact ⟨[], .nil, rfl, rfl⟩
  | cons s rest ih =>
    obtain ⟨name, g⟩ := s
    rw [writeCode] at ok
    cases encoded : codec.encode g with
    | error err =>
      rw [encoded] at ok
      cases ok
    | ok bytes =>
      rw [encoded] at ok
      dsimp only at ok
      split at ok
      · cases ok
      · rename_i w'' entries' eq
        cases ok
        obtain ⟨files, encodes, rfl, rfl⟩ := ih eq
        exact ⟨(name, bytes) :: files, .cons ⟨rfl, encoded⟩ encodes, rfl, rfl⟩

theorem writeForeign_eq (prior : Option Manifest) (w : Write) (foreign : List ForeignShard) :
    writeForeign prior w foreign = writeShards prior w (foreign.map fun f => (f.name, f.bytes)) := by
  rw [writeForeign, writeShards, List.foldl_map]

theorem writeCross_unpublished (codec : ShardCodec r G) (prior : Option Manifest)
    (h : w.Unpublished d) (edges : List Edge) :
    (writeCross codec prior w edges).1.Unpublished d := by
  rw [writeCross]
  split
  · exact h
  · cases codec.encodeCross edges with
    | error err => exact h
    | ok bytes => exact h.settle (by decide)

theorem writeCross_ok {edges : List Edge} {w' : Write} {cross : Option ShardEntry}
    (ok : writeCross codec prior w edges = (w', .ok cross)) :
    (edges = [] ∧ w' = w ∧ cross = none) ∨
      ∃ bytes, edges ≠ [] ∧ codec.encodeCross edges = .ok bytes ∧ cross = some (crossEntry bytes) ∧
        w'.disk = Function.update w.disk crossStackName (some bytes) := by
  rw [writeCross] at ok
  split at ok
  · rename_i empty
    cases ok
    exact .inl ⟨List.isEmpty_iff.mp empty, rfl, rfl⟩
  · rename_i some_
    cases encoded : codec.encodeCross edges with
    | error err =>
      rw [encoded] at ok
      cases ok
    | ok bytes =>
      rw [encoded] at ok
      cases ok
      exact .inr ⟨bytes, fun none => some_ (List.isEmpty_iff.mpr none), rfl, rfl, w.settle_disk _ _ _⟩

end Files

section Foreign

theorem checkForeigns_ok {taken : List String} {foreign : List ForeignShard}
    (ok : checkForeigns taken foreign = .ok ()) (distinct : taken.Nodup) :
    (taken ++ foreign.map (·.name)).Nodup ∧
      ∀ f ∈ foreign, fileName f.name ≠ crossStackName ∧ f.graphType ≠ Header.codeGraphType := by
  induction foreign generalizing taken with
  | nil => exact ⟨by rw [List.map_nil, List.append_nil]; exact distinct, fun _ mem => (nomatch mem)⟩
  | cons f rest ih =>
    rw [checkForeigns] at ok
    cases checked : checkForeign f taken with
    | error err =>
      rw [checked] at ok
      cases ok
    | ok u =>
      rw [checked] at ok
      rw [checkForeign] at checked
      dsimp only at checked
      split at checked
      · cases checked
      · split at checked
        · cases checked
        · rename_i typed
          split at checked
          · cases checked
          · rename_i named
            rw [Bool.or_eq_true, not_or, beq_iff_eq] at typed
            rw [Bool.or_eq_true, not_or, beq_iff_eq, List.contains_iff_mem] at named
            have tail := ih ok (by
              rw [List.nodup_append]
              refine ⟨distinct, List.nodup_singleton _, ?_⟩
              intro a mem b last same
              rw [same, List.mem_singleton.mp last] at mem
              exact named.2 mem)
            rw [List.append_assoc, List.singleton_append] at tail
            exact ⟨tail.1, List.forall_mem_cons.mpr ⟨⟨named.1, typed.2⟩, tail.2⟩⟩

end Foreign

section NamedShards
variable {r : Rkyv Container} {G : Type} {codec : ShardCodec r G}

theorem namedShards_nodup (graphs : List G) :
    ((namedShards codec graphs).map (·.1)).Nodup := by
  rw [List.Nodup, List.pairwise_iff_getElem]
  intro i j hi hj lt same
  have length : ((namedShards codec graphs).map (·.1)).length = graphs.length := by
    rw [List.length_map, namedShards, List.length_mapIdx]
  simp only [namedShards, List.getElem_map, List.getElem_mapIdx] at same
  have several : graphs.length ≠ 1 := by omega
  have := shardName_inj several same
  omega

theorem namedShards_ne_cross {graphs : List G} {s : String × G}
    (mem : s ∈ namedShards codec graphs) : fileName s.1 ≠ crossStackName := by
  obtain ⟨i, hi, rfl⟩ := List.mem_mapIdx.mp mem
  exact shardName_ne_cross _ _ _

end NamedShards

end Glia.Store
