import Glia.CodeDomain
import Glia.Graph.NodeRead
import Glia.Kit.Ranking
import Glia.Text

/-! The roles a node plays: its own kind and what its ROLE cells list. A cell written is read
back whole. -/
namespace Glia.Graph

open Glia.Kit.Ranking (dedup)

section Cells

/-- COMPONENT, HOOK, SERVICE, DIRECTIVE, PIPE, GUARD, COMPOSABLE. -/
def roleKinds : List Nat := [28, 29, 30, 31, 32, 33, 34]

def roleCellType : CellTypeId := 20

def sortedKinds (kinds : List Nat) : List Nat := dedup (kinds.insertionSort (· ≤ ·))

def unquote (tok : List Char) : Option (List Char) :=
  (stripChar '"' tok).bind fun rest => if rest.getLast? = some '"' then some rest.dropLast else none

def kindNamed (name : List Char) : Option Nat :=
  (NodeKind.all.find? fun e => e.2.toList = name).map Prod.fst

def parseRoleNames (json : List Char) : List Nat :=
  let list := do
    let (_, after) ← Text.cutFirst ['"', 'r', 'o', 'l', 'e', 's', '"'] json
    let rest ← stripChar ':' (after.dropWhile Text.isWhitespace)
    let list ← stripChar '[' (rest.dropWhile Text.isWhitespace)
    Text.cutFirst [']'] list
  match list with
  | none => []
  | some (list, _) =>
    (list.splitOn ',').filterMap fun tok => (unquote (Text.trimChars tok)).bind kindNamed

def cellRoles (c : Cell) : List Nat :=
  if c.kind = roleCellType then
    match c.payload with
    | .json s | .text s => parseRoleNames s.toList
    | .bytes _ => []
  else []

def rolesIn (kind : Option Nat) (cells : List Cell) : List Nat :=
  sortedKinds ((kind.filter fun k => roleKinds.contains k).toList ++ cells.flatMap cellRoles)

def kindName (k : Nat) : String := (nameOf NodeKind.all k).getD "UNKNOWN"

def quote (name : String) : List Char := '"' :: (name.toList ++ ['"'])

def roleList (roles : List Nat) : List Char :=
  [','].intercalate (((sortedKinds roles).map kindName |>.filter (· ≠ "UNKNOWN")).map quote)

def roleText (roles : List Nat) : List Char :=
  '\x7b' :: ['"', 'r', 'o', 'l', 'e', 's', '"'] ++ ':' :: '[' :: (roleList roles ++ [']', '\x7d'])

def roleCell (roles : List Nat) : Cell :=
  ⟨roleCellType, .json (String.ofList (roleText roles))⟩

end Cells

section Read

theorem mem_sortedKinds {kinds : List Nat} {k : Nat} : k ∈ sortedKinds kinds ↔ k ∈ kinds := by
  rw [sortedKinds, Glia.Kit.Ranking.mem_dedup, List.mem_insertionSort]

theorem mem_rolesIn {kind : Option Nat} {cells : List Cell} {k : Nat} :
    k ∈ rolesIn kind cells ↔ (kind = some k ∧ k ∈ roleKinds) ∨ ∃ c ∈ cells, k ∈ cellRoles c := by
  rw [rolesIn, mem_sortedKinds, List.mem_append, List.mem_flatMap, Option.mem_toList,
    Option.filter_eq_some_iff, List.contains_iff_mem]

def Known (k : Nat) : Prop := k ∈ NodeKind.all.map Prod.fst

instance : DecidablePred Known := fun k => inferInstanceAs (Decidable (k ∈ _))

theorem kindNamed_known {name : List Char} {k : Nat} (h : kindNamed name = some k) : Known k := by
  obtain ⟨e, found, rfl⟩ := Option.map_eq_some_iff.mp h
  exact List.mem_map_of_mem (List.mem_of_find?_eq_some found)

theorem parseRoleNames_known {json : List Char} {k : Nat} (mem : k ∈ parseRoleNames json) :
    Known k := by
  unfold parseRoleNames at mem
  dsimp only at mem
  split at mem
  · cases mem
  · obtain ⟨tok, _, eq⟩ := List.mem_filterMap.mp mem
    obtain ⟨name, _, named⟩ := Option.bind_eq_some_iff.mp eq
    exact kindNamed_known named

theorem cellRoles_known {c : Cell} {k : Nat} (mem : k ∈ cellRoles c) : Known k := by
  unfold cellRoles at mem
  split at mem
  · split at mem
    · exact parseRoleNames_known mem
    · exact parseRoleNames_known mem
    · cases mem
  · cases mem

theorem roleKinds_known : ∀ k ∈ roleKinds, Known k := by decide

theorem rolesIn_known {kind : Option Nat} {cells : List Cell} {k : Nat}
    (mem : k ∈ rolesIn kind cells) : Known k := by
  rcases mem_rolesIn.mp mem with ⟨_, role⟩ | ⟨c, _, listed⟩
  · exact roleKinds_known k role
  · exact cellRoles_known listed

end Read

section RoundTrip

/-- A name without quotes, commas, brackets and white space. -/
def plainName (name : String) : Bool :=
  name.toList.all fun c => c != ',' && c != ']' && c != '"' && !Text.isWhitespace c

theorem all_plain : ∀ e ∈ NodeKind.all, plainName e.2 = true := by decide +kernel

theorem all_named : ∀ e ∈ NodeKind.all, kindName e.1 = e.2 ∧ e.2 ≠ "UNKNOWN" ∧
    kindNamed e.2.toList = some e.1 := by decide +kernel

theorem cutFirst_none {c : Char} {s rest : List Char} (out : c ∉ s) :
    Text.cutFirst [c] (s ++ c :: rest) = some (s, rest) := by
  induction s with
  | nil =>
    rw [List.nil_append, Text.cutFirst]
    simp
  | cons d s ih =>
    have apart : ¬([c].isPrefixOf (d :: (s ++ c :: rest)) = true) := by
      intro same
      have eq : c = d := by simpa using same
      exact out (eq ▸ List.mem_cons_self)
    rw [List.cons_append, Text.cutFirst, if_neg apart,
      ih fun mem => out (List.mem_cons_of_mem d mem)]
    rfl

theorem trimChars_quote (name : String) : Text.trimChars (quote name) = quote name := by
  have white : Text.isWhitespace '"' = false := by decide
  unfold Text.trimChars quote
  rw [List.dropWhile_cons_of_neg (by rw [white]; exact Bool.false_ne_true), List.reverse_cons,
    List.reverse_append, List.reverse_singleton, List.singleton_append, List.cons_append,
    List.dropWhile_cons_of_neg (by rw [white]; exact Bool.false_ne_true)]
  simp

theorem unquote_quote (name : String) : unquote (quote name) = some name.toList := by
  unfold unquote quote stripChar
  simp

theorem read_name {e : Nat × String} (mem : e ∈ NodeKind.all) :
    (unquote (Text.trimChars (quote e.2))).bind kindNamed = some e.1 := by
  rw [trimChars_quote, unquote_quote, Option.bind_some]
  exact (all_named e mem).2.2

theorem quote_plain {name : String} (plain : plainName name = true) (c : Char)
    (sign : c = ',' ∨ c = ']') : c ∉ quote name := by
  intro mem
  have quoteNe : c ≠ '"' := by rcases sign with rfl | rfl <;> decide
  rcases List.mem_cons.mp mem with eq | later
  · exact quoteNe eq
  · rcases List.mem_append.mp later with inside | last
    · have free := List.all_eq_true.mp plain c inside
      rcases sign with rfl | rfl
      · simp at free
      · simp at free
    · exact quoteNe (List.mem_singleton.mp last)

theorem known_entry {k : Nat} (known : Known k) : ∃ e ∈ NodeKind.all, e.1 = k :=
  List.mem_map.mp known

theorem names_known {kinds : List Nat} (known : ∀ k ∈ kinds, Known k) :
    (kinds.map kindName).filter (· ≠ "UNKNOWN") = kinds.map kindName := by
  refine List.filter_eq_self.mpr fun name mem => ?_
  obtain ⟨k, listed, rfl⟩ := List.mem_map.mp mem
  obtain ⟨e, held, rfl⟩ := known_entry (known k listed)
  rw [(all_named e held).1]
  exact decide_eq_true (all_named e held).2.1

theorem read_names {kinds : List Nat} (known : ∀ k ∈ kinds, Known k) :
    ((kinds.map kindName).map quote).filterMap
      (fun tok => (unquote (Text.trimChars tok)).bind kindNamed) = kinds := by
  induction kinds with
  | nil => rfl
  | cons k kinds ih =>
    obtain ⟨e, held, rfl⟩ := known_entry (known _ List.mem_cons_self)
    have here := read_name held
    rw [List.map_cons, List.map_cons, List.filterMap_cons, (all_named e held).1, here,
      ih fun k mem => known k (List.mem_cons_of_mem _ mem)]

theorem out_of_intercalate {c sep : Char} {ls : List (List Char)} (apart : c ≠ sep)
    (out : ∀ l ∈ ls, c ∉ l) : c ∉ [sep].intercalate ls := by
  induction ls with
  | nil => exact List.not_mem_nil
  | cons l ls ih =>
    have here := out l List.mem_cons_self
    cases ls with
    | nil => rwa [List.intercalate_singleton]
    | cons l' ls =>
      have rest := ih fun m mem => out m (List.mem_cons_of_mem l mem)
      rw [List.intercalate_cons_cons, List.mem_append, List.mem_append, List.mem_singleton]
      exact not_or.mpr ⟨not_or.mpr ⟨here, apart⟩, rest⟩

theorem cellRoles_roleCell {roles : List Nat} (known : ∀ k ∈ roles, Known k) :
    cellRoles (roleCell roles) = sortedKinds roles := by
  have known' : ∀ k ∈ sortedKinds roles, Known k := fun k mem => known k (mem_sortedKinds.mp mem)
  have text : (String.ofList (roleText roles)).toList = roleText roles := String.toList_ofList
  have list : roleList roles = [','].intercalate (((sortedKinds roles).map kindName).map quote) := by
    rw [roleList, names_known known']
  have plain : ∀ tok ∈ ((sortedKinds roles).map kindName).map quote, ∀ c, c = ',' ∨ c = ']' →
      c ∉ tok := by
    intro tok mem
    obtain ⟨name, named, rfl⟩ := List.mem_map.mp mem
    obtain ⟨k, listed, rfl⟩ := List.mem_map.mp named
    obtain ⟨e, held, rfl⟩ := known_entry (known' k listed)
    rw [(all_named e held).1]
    exact quote_plain (all_plain e held)
  have closed : ']' ∉ roleList roles := by
    rw [list]
    exact out_of_intercalate (by decide) fun tok mem => plain tok mem ']' (.inr rfl)
  have start : Text.cutFirst ['"', 'r', 'o', 'l', 'e', 's', '"'] (roleText roles) =
      some (['\x7b'], ':' :: '[' :: (roleList roles ++ [']', '\x7d'])) := rfl
  have bracket : Text.cutFirst [']'] (roleList roles ++ [']', '\x7d']) =
      some (roleList roles, ['\x7d']) := cutFirst_none closed
  have colon : stripChar ':' ((':' :: '[' :: (roleList roles ++ [']', '\x7d'])).dropWhile
      Text.isWhitespace) = some ('[' :: (roleList roles ++ [']', '\x7d'])) := rfl
  have open_ : stripChar '[' (('[' :: (roleList roles ++ [']', '\x7d'])).dropWhile
      Text.isWhitespace) = some (roleList roles ++ [']', '\x7d']) := rfl
  have split : parseRoleNames (roleText roles) = ((roleList roles).splitOn ',').filterMap
      fun tok => (unquote (Text.trimChars tok)).bind kindNamed := by
    unfold parseRoleNames
    simp only [start, colon, open_, bracket, bind, Option.bind_some]
  rw [cellRoles, roleCell, if_pos rfl]
  dsimp only
  rw [text, split, list]
  by_cases none : sortedKinds roles = []
  · rw [none]
    rfl
  · rw [List.splitOn_intercalate ',' (fun tok mem => plain tok mem ',' (.inl rfl))
      (by simpa using none)]
    exact read_names known'

end RoundTrip

end Glia.Graph
