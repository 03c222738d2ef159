import Glia.Graph.QueuePairs

/-! What a subscription's classification says of the topics it stands for, and what the literal
start of a Kafka regex says of the topics the regex matches. -/
namespace Glia.Graph

section Tokens
variable {syn : Segmented}

theorem Covers.mem {ps ts : List (List Char)} (covers : Covers syn ps ts) {p : List Char}
    (mem : p ∈ ps) (literal : syn.isWild p = false) : p ∈ ts := by
  rw [Segmented.isWild, Bool.or_eq_false_iff, Bool.or_eq_false_iff] at literal
  obtain ⟨⟨one, any_⟩, some_⟩ := literal
  induction covers with
  | nil => exact mem
  | restAny lead h ih =>
    rcases List.mem_cons.mp mem with rfl | later
    · exact absurd (beq_self_eq_true _) (Bool.eq_false_iff.mp any_)
    · exact List.mem_append_right lead (ih later)
  | restSome other h =>
    have same := List.mem_singleton.mp mem
    subst same
    exact absurd (beq_iff_eq.mpr h) (Bool.eq_false_iff.mp some_)
  | token other single same h ih =>
    rcases List.mem_cons.mp mem with rfl | later
    · rcases same with eq | rfl
      · exact absurd (beq_iff_eq.mpr eq) (Bool.eq_false_iff.mp one)
      · exact List.mem_cons_self
    · exact List.mem_cons_of_mem _ (ih later)

theorem covers_literal {ps ts : List (List Char)} (literal : ∀ p ∈ ps, syn.isWild p = false) :
    Covers syn ps ts ↔ ts = ps := by
  induction ps generalizing ts with
  | nil =>
    constructor
    · rintro ⟨⟩
      rfl
    · rintro rfl
      exact .nil
  | cons p ps ih =>
    have here := literal p List.mem_cons_self
    rw [Segmented.isWild, Bool.or_eq_false_iff, Bool.or_eq_false_iff] at here
    obtain ⟨⟨one, any_⟩, some_⟩ := here
    rw [Covers.cons_iff, if_neg (beq_eq_false_iff_ne.mp any_), if_neg (beq_eq_false_iff_ne.mp some_)]
    constructor
    · rintro ⟨t, rest, rfl, same, h⟩
      rw [(ih fun q mem => literal q (List.mem_cons_of_mem p mem)).mp h,
        same.resolve_left (beq_eq_false_iff_ne.mp one)]
    · rintro rfl
      exact ⟨p, ps, rfl, .inr rfl,
        (ih fun q mem => literal q (List.mem_cons_of_mem p mem)).mpr rfl⟩

end Tokens

section Classes
variable (syn : Segmented) (pattern : List Char)

def Plain : Prop := ∀ s ∈ pattern.splitOn syn.sep, syn.isWild s = false

def Unnamed : Prop := ∀ s ∈ pattern.splitOn syn.sep, s ≠ [] → syn.isWild s = true

theorem compileSegments_literal : compileSegments syn pattern = .literal ↔ Plain syn pattern := by
  unfold compileSegments Plain
  dsimp only
  split
  · rename_i none
    refine iff_of_true rfl fun s mem => ?_
    simpa using List.any_eq_false.mp (Bool.not_eq_true' _ |>.mp none) s mem
  · rename_i some_
    refine iff_of_false (fun eq => ?_) fun plain => some_ ?_
    · split at eq <;> cases eq
    · rw [Bool.not_eq_true', List.any_eq_false]
      exact fun s mem wild => Bool.false_ne_true ((plain s mem).symm.trans wild)

theorem compileSegments_catchall :
    compileSegments syn pattern = .catchall ↔ ¬Plain syn pattern ∧ Unnamed syn pattern := by
  rw [← compileSegments_literal, Unnamed]
  unfold compileSegments
  dsimp only
  split
  · exact iff_of_false nofun fun h => h.1 rfl
  · split
    · rename_i none
      refine iff_of_true rfl ⟨nofun, fun s mem full => ?_⟩
      have no := List.any_eq_false.mp (Bool.not_eq_true' _ |>.mp none) s mem
      simpa [full] using no
    · rename_i some_
      refine iff_of_false nofun fun h => some_ ?_
      rw [Bool.not_eq_true', List.any_eq_false]
      intro s mem both
      rw [Bool.and_eq_true, Bool.not_eq_true', Bool.not_eq_true'] at both
      have wild := h.2 s mem (by simpa using both.1)
      exact Bool.false_ne_true (both.2.symm.trans wild)

theorem compileSegments_every (sep : syn.sep ≠ 'a' ∧ syn.sep ≠ 'b')
    (every : ∀ topic : List Char, Covers syn (pattern.splitOn syn.sep) (topic.splitOn syn.sep)) :
    compileSegments syn pattern = .catchall := by
  have wild : ∀ s ∈ pattern.splitOn syn.sep, syn.isWild s = true := by
    intro s mem
    by_contra literal
    have inA := (every ['a']).mem mem (Bool.eq_false_iff.mpr literal)
    have inB := (every ['b']).mem mem (Bool.eq_false_iff.mpr literal)
    rw [List.splitOn_eq_singleton (by simpa using sep.1), List.mem_singleton] at inA
    rw [List.splitOn_eq_singleton (by simpa using sep.2), List.mem_singleton] at inB
    rw [inA] at inB
    cases inB
  refine (compileSegments_catchall syn pattern).mpr ⟨fun plain => ?_, fun s mem _ => wild s mem⟩
  obtain ⟨s, rest, eq⟩ := List.exists_cons_of_ne_nil (List.splitOn_ne_nil syn.sep pattern)
  have mem : s ∈ pattern.splitOn syn.sep := by
    rw [eq]
    exact List.mem_cons_self
  exact Bool.false_ne_true ((plain s mem).symm.trans (wild s mem))

end Classes

section Regex

/-- What follows a literal may repeat or drop it. -/
def Optional (rest : List Char) : Prop := ∃ c ∈ rest.head?, c = '*' ∨ c = '?' ∨ c = '\x7b'

def StandsForItself (c : Char) : Prop := c ∉ regexMeta ∧ c ≠ '\x5c' ∧ c ≠ '|'

/-- What the regex library says of `^`, `$`, literals, escapes and concatenation: `At before p t`
is that after `before` the rest `p` of the regex matches all of the rest `t` of the text. -/
structure RegexLaws (At : List Char → List Char → List Char → Prop) : Prop where
  done : ∀ before t, At before [] t → t = []
  dollar : ∀ before t, At before ['$'] t → t = []
  caret : ∀ p t, At [] ('^' :: p) t → At [] p t
  literal : ∀ before c p t, StandsForItself c → ¬Optional p → '|' ∉ p → At before (c :: p) t →
    ∃ rest, t = c :: rest ∧ (p.head? ≠ some '+' → At (before ++ [c]) p rest)
  escaped : ∀ before c p t, c.isAlphanum = false → ¬Optional p → '|' ∉ c :: p →
    At before ('\x5c' :: c :: p) t →
    ∃ rest, t = c :: rest ∧ (p.head? ≠ some '+' → At (before ++ [c]) p rest)

/-- The literal start is the text's, and the whole of it where it is the whole regex. -/
def Starts (lead : List Char × Bool) (t : List Char) : Prop :=
  lead.1 <+: t ∧ (lead.2 = true → t = lead.1)

theorem starts_nothing (t : List Char) : Starts ([], false) t := ⟨List.nil_prefix, nofun⟩

theorem optional_iff (rest : List Char) :
    (rest.head?.any fun c => c == '*' || c == '?' || c == '\x7b') = true ↔ Optional rest := by
  unfold Optional
  cases rest.head? with
  | none => simp
  | some c => simp [or_assoc]

theorem literalFrom_plus (p : List Char) : literalFrom ('+' :: p) = ([], false) := by
  have inside : '+' ∈ regexMeta := by decide
  rw [literalFrom, if_neg (by decide), if_neg fun h => absurd h.1 (by decide), if_pos inside]
  exact fun _ _ eq => absurd eq (by decide)

variable {At : List Char → List Char → List Char → Prop}

theorem literalThen_starts {before p t : List Char} {c : Char}
    (split : ¬Optional p → ∃ rest, t = c :: rest ∧ (p.head? ≠ some '+' → At (before ++ [c]) p rest))
    (next : ∀ rest, At (before ++ [c]) p rest → Starts (literalFrom p) rest) :
    Starts (literalThen c p (literalFrom p)) t := by
  unfold literalThen
  by_cases opt : Optional p
  · rw [if_pos ((optional_iff p).mpr opt)]
    exact starts_nothing t
  · rw [if_neg fun h => opt ((optional_iff p).mp h)]
    obtain ⟨rest, rfl, after⟩ := split opt
    have starts : Starts (literalFrom p) rest := by
      by_cases plus : p.head? = some '+'
      · obtain ⟨p, rfl⟩ := List.head?_eq_some_iff.mp plus
        rw [literalFrom_plus]
        exact starts_nothing rest
      · exact next rest (after plus)
    exact ⟨List.cons_prefix_cons.mpr ⟨rfl, starts.1⟩,
      fun whole => congrArg (c :: ·) (starts.2 whole)⟩

/-- The walk over a regex keeps to what every text it matches starts with. -/
theorem literalFrom_starts (regex : RegexLaws At) (p : List Char) (before t : List Char)
    (one : '|' ∉ p) (matched : At before p t) : Starts (literalFrom p) t := by
  induction p using literalFrom.induct generalizing before t with
  | case1 =>
    rw [regex.done before t matched, literalFrom]
    exact ⟨List.nil_prefix, fun _ => rfl⟩
  | case2 e rest alnum =>
    rw [literalFrom, if_pos alnum]
    exact starts_nothing t
  | case3 e rest alnum ih =>
    have later : '|' ∉ e :: rest := fun mem => one (List.mem_cons_of_mem _ mem)
    rw [literalFrom, if_neg alnum]
    exact literalThen_starts
      (fun opt => regex.escaped before e rest t (Bool.eq_false_iff.mpr alnum) opt later matched)
      fun rest' after => ih _ rest' (fun mem => later (List.mem_cons_of_mem _ mem)) after
  | case4 rest alone =>
    rw [literalFrom, if_pos rfl]
    · exact starts_nothing t
    · exact alone
  | case5 c rest alone other last =>
    obtain ⟨rfl, rfl⟩ := last
    rw [literalFrom, if_neg other, if_pos ⟨rfl, rfl⟩]
    · rw [regex.dollar before t matched]
      exact ⟨List.nil_prefix, fun _ => rfl⟩
    · exact alone
  | case6 c rest alone other last special =>
    rw [literalFrom, if_neg other, if_neg last, if_pos special]
    · exact starts_nothing t
    · exact alone
  | case7 c rest alone other last plain ih =>
    have later : '|' ∉ rest := fun mem => one (List.mem_cons_of_mem _ mem)
    have stands : StandsForItself c :=
      ⟨plain, other, fun eq => one (eq ▸ List.mem_cons_self)⟩
    rw [literalFrom, if_neg other, if_neg last, if_neg plain]
    · exact literalThen_starts (fun opt => regex.literal before c rest t stands opt later matched)
        fun rest' after => ih _ rest' later after
    · exact alone

theorem kafkaLiteralPrefix_starts (regex : RegexLaws At) (pattern topic : List Char)
    (matched : At [] pattern topic) : Starts (kafkaLiteralPrefix pattern) topic := by
  have body : At [] (if pattern.head? = some '^' then pattern.tail else pattern) topic := by
    split
    · rename_i caret
      obtain ⟨p, rfl⟩ := List.head?_eq_some_iff.mp caret
      exact regex.caret p topic matched
    · exact matched
  unfold kafkaLiteralPrefix
  dsimp only
  generalize (if pattern.head? = some '^' then pattern.tail else pattern) = p at body ⊢
  split
  · exact starts_nothing topic
  · rename_i one
    exact literalFrom_starts regex p [] topic one body

/-- What a topic of a Kafka client has that no topic name can. -/
def Marked (topic : List Char) : Prop := topic.head? = some '^' ∨ ∃ c ∈ topic, c ∈ regexMarks

theorem compileKafka_literal (topic : List Char) :
    compileKafka topic = .literal ↔ ¬Marked topic := by
  have marks : (topic.head? ≠ some '^' ∧ !topic.any (regexMarks.contains ·)) ↔ ¬Marked topic := by
    simp [Marked]
  unfold compileKafka
  split
  · rename_i h
    exact iff_of_true rfl (marks.mp h)
  · rename_i h
    refine iff_of_false (fun eq => ?_) fun plain => h (marks.mpr plain)
    dsimp only at eq
    split at eq <;> cases eq

theorem compileKafka_catchall (topic : List Char) :
    compileKafka topic = .catchall ↔ Marked topic ∧ (kafkaLiteralPrefix topic).1 = [] := by
  have literal := compileKafka_literal topic
  unfold compileKafka at literal ⊢
  split
  · rename_i h
    rw [if_pos h] at literal
    exact iff_of_false nofun fun both => literal.mp rfl both.1
  · rename_i h
    rw [if_neg h] at literal
    have marked : Marked topic := by
      by_contra plain
      have eq := literal.mpr plain
      dsimp only at eq
      split at eq <;> cases eq
    dsimp only
    split
    · rename_i none
      exact iff_of_true rfl ⟨marked, none⟩
    · rename_i some_
      exact iff_of_false nofun fun both => some_ both.2

end Regex

section Whole

structure SegmentedExact (syn : Segmented) : Prop where
  matches_iff : ∀ pattern topic : String, (Pattern.segments syn).matches pattern topic = true ↔
    Covers syn (pattern.toList.splitOn syn.sep) (topic.toList.splitOn syn.sep)
  literal : ∀ pattern, compileSegments syn pattern = .literal ↔ Plain syn pattern
  catchall : ∀ pattern,
    compileSegments syn pattern = .catchall ↔ ¬Plain syn pattern ∧ Unnamed syn pattern
  every : ∀ pattern, (∀ topic : List Char,
      Covers syn (pattern.splitOn syn.sep) (topic.splitOn syn.sep)) →
    compileSegments syn pattern = .catchall

structure KafkaExact (At : List Char → List Char → List Char → Prop) : Prop where
  starts : ∀ pattern topic, At [] pattern topic → (kafkaLiteralPrefix pattern).1 <+: topic ∧
    ((kafkaLiteralPrefix pattern).2 = true → topic = (kafkaLiteralPrefix pattern).1)
  literal : ∀ pattern, compileKafka pattern = .literal ↔ ¬Marked pattern
  catchall : ∀ pattern,
    compileKafka pattern = .catchall ↔ Marked pattern ∧ (kafkaLiteralPrefix pattern).1 = []
  every : ∀ pattern, Marked pattern → (∀ topic, At [] pattern topic) →
    compileKafka pattern = .catchall

theorem segmented_exact {syn : Segmented} (sep : syn.sep ≠ 'a' ∧ syn.sep ≠ 'b') :
    SegmentedExact syn where
  matches_iff _ _ := segWalk_iff syn _ _
  literal := compileSegments_literal syn
  catchall := compileSegments_catchall syn
  every pattern := compileSegments_every syn pattern sep

/-- Wildcard matching is that of its dialect, and a Kafka regex keeps to its literal start. -/
theorem wildcards_exact {At : List Char → List Char → List Char → Prop} (regex : RegexLaws At) :
    SegmentedExact dotted ∧ SegmentedExact slashed ∧ KafkaExact At := by
  refine ⟨segmented_exact (by decide), segmented_exact (by decide),
    kafkaLiteralPrefix_starts regex, compileKafka_literal, compileKafka_catchall, ?_⟩
  intro pattern marked every
  refine (compileKafka_catchall pattern).mpr ⟨marked, ?_⟩
  exact List.prefix_nil.mp (kafkaLiteralPrefix_starts regex pattern [] (every [])).1

instance (rest : List Char) : Decidable (Optional rest) := decidable_of_iff _ (optional_iff rest)

instance (c : Char) : Decidable (StandsForItself c) :=
  inferInstanceAs (Decidable (c ∉ regexMeta ∧ c ≠ '\x5c' ∧ c ≠ '|'))

def plainText : List Char → Option (List Char)
  | [] => some []
  | '\x5c' :: e :: rest =>
    if e.isAlphanum ∨ Optional rest then none else (plainText rest).map (e :: ·)
  | c :: rest =>
    if c = '$' ∧ rest = [] then some []
    else if StandsForItself c ∧ ¬Optional rest then (plainText rest).map (c :: ·)
    else none

/-- A regex library that knows literals, escapes and the anchors at the ends. -/
def PlainAt (before p t : List Char) : Prop :=
  plainText (if before = [] ∧ p.head? = some '^' then p.tail else p) = some t

theorem plainText_cons {c : Char} {p : List Char} (stands : StandsForItself c)
    (kept : ¬Optional p) : plainText (c :: p) = (plainText p).map (c :: ·) := by
  have dollar : ¬(c = '$' ∧ p = []) := fun h => stands.1 (h.1 ▸ by decide)
  rw [plainText, if_neg dollar, if_pos ⟨stands, kept⟩]
  exact fun _ _ eq => absurd eq stands.2.1

theorem plainAt_inside {before p t : List Char} (c : Char) (h : plainText p = some t) :
    PlainAt (before ++ [c]) p t := by
  unfold PlainAt
  rw [if_neg fun both => List.append_ne_nil_of_right_ne_nil before (List.cons_ne_nil c []) both.1]
  exact h

theorem plainAt_laws : RegexLaws PlainAt where
  done before t matched := by
    unfold PlainAt at matched
    rw [if_neg fun both => nomatch both.2, plainText] at matched
    exact (Option.some.inj matched).symm
  dollar before t matched := by
    unfold PlainAt at matched
    rw [if_neg fun both => absurd both.2 (by decide)] at matched
    exact (Option.some.inj matched).symm
  caret p t matched := by
    unfold PlainAt at matched ⊢
    rw [if_pos ⟨rfl, rfl⟩, List.tail_cons] at matched
    rw [if_neg, matched]
    rintro ⟨_, head⟩
    obtain ⟨p, rfl⟩ := List.head?_eq_some_iff.mp head
    rw [plainText, if_neg fun h => absurd h.1 (by decide), if_neg fun h => h.1.1 (by decide)]
      at matched
    · cases matched
    · exact fun _ _ eq => absurd eq (by decide)
  literal before c p t stands kept _ matched := by
    have plain : plainText (c :: p) = some t := by
      unfold PlainAt at matched
      rw [if_neg fun both => stands.1 ?_] at matched
      · exact matched
      · rw [Option.some.inj both.2]
        decide
    rw [plainText_cons stands kept] at plain
    obtain ⟨rest, text, rfl⟩ := Option.map_eq_some_iff.mp plain
    exact ⟨rest, rfl, fun _ => plainAt_inside c text⟩
  escaped before c p t sign kept _ matched := by
    have plain : plainText ('\x5c' :: c :: p) = some t := by
      unfold PlainAt at matched
      rw [if_neg fun both => absurd (Option.some.inj both.2) (by decide)] at matched
      exact matched
    rw [plainText, if_neg fun h => h.elim (Bool.eq_false_iff.mp sign) kept] at plain
    obtain ⟨rest, text, rfl⟩ := Option.map_eq_some_iff.mp plain
    exact ⟨rest, rfl, fun _ => plainAt_inside c text⟩

instance (before p t : List Char) : Decidable (PlainAt before p t) :=
  inferInstanceAs (Decidable (_ = some t))

/-- An anchored topic name is its own literal prefix, and the whole of what it matches. -/
theorem wildcards_exact_plain : PlainAt [] "^orders\\.paid$".toList "orders.paid".toList ∧
    kafkaLiteralPrefix "^orders\\.paid$".toList = ("orders.paid".toList, true) ∧
    (∀ topic, PlainAt [] "^orders\\.paid$".toList topic → topic = "orders.paid".toList) ∧
    compileKafka "^orders\\.paid$".toList ≠ .catchall := by
  have known : kafkaLiteralPrefix "^orders\\.paid$".toList = ("orders.paid".toList, true) := by
    decide +kernel
  have ⟨_, _, kafka⟩ := wildcards_exact plainAt_laws
  refine ⟨by decide +kernel, known, fun topic matched => ?_, fun every => ?_⟩
  · have whole := (kafka.starts _ _ matched).2
    rw [known] at whole
    exact whole rfl
  · have none := ((kafka.catchall _).mp every).2
    rw [known] at none
    cases none

/-- One token of any name: taken for a subscription of everything. -/
theorem star_not_every : compileSegments dotted "*".toList = .catchall ∧
    (Pattern.segments dotted).matches "*" "orders.paid" = false := by
  decide +kernel

end Whole

end Glia.Graph
