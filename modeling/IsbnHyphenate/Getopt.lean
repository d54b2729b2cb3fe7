import IsbnHyphenate.Machine

/-!
# The options of a command line

`getopt_long` of the C library for an option string that starts with `+`, where
the first word that is not an option ends the scan, and for long options
without arguments. A call resumes inside a word or at the next one. Over it
stands the grammar of a command line: the options of every word and the
operands behind them, read without a state.
-/

namespace IsbnHyphenate

structure LongOption where
  name : CStr
  val : Chr

structure Options where
  short : CStr
  long : List LongOption

/-- The words from `optind` on, what is left of the first of them if the scan
stands inside of it, and `optopt`. -/
structure Scan where
  words : List CStr
  nextchar : CStr
  optopt : ℤ

def dash : Chr := ⟨45, by decide⟩
def colon : Chr := ⟨58, by decide⟩
def semicolon : Chr := ⟨59, by decide⟩
def equals : Chr := ⟨61, by decide⟩
def question : Chr := ⟨63, by decide⟩

def endOfOptions : CStr := [dash, dash]

inductive ShortKind where
  | unknown
  | plain
  | argument
  deriving DecidableEq

namespace Options
variable (opts : Options)

def kind (c : Chr) : ShortKind :=
  if c = colon ∨ c = semicolon then .unknown
  else
    match opts.short.dropWhile fun d => d ≠ c with
    | [] => .unknown
    | [_] => .plain
    | _ :: d :: _ => if d = colon then .argument else .plain

/-- An exact name, or the beginning of one name or of names of one option. -/
def findLong (name : CStr) : Option Chr :=
  match opts.long.find? fun o => o.name = name with
  | some o => some o.val
  | none =>
    match opts.long.filter fun o => name <+: o.name with
    | [] => none
    | o :: os => if ∀ o' ∈ os, o'.val = o.val then some o.val else none

/-- What a call returns, and `optopt` where the call sets it. -/
structure Found where
  optc : Chr
  optopt : Option ℤ
  deriving DecidableEq

def processLong (word : CStr) : Found :=
  let nextchar := word.drop 2
  let name := nextchar.takeWhile fun c => c ≠ equals
  match opts.findLong name with
  | none => ⟨question, some 0⟩
  | some val =>
    if name.length < nextchar.length then ⟨question, some (chrInt val)⟩ else ⟨val, none⟩

def Found.result (found : Found) (words : List CStr) (nextchar : CStr) (optopt : ℤ) :
    Option Chr × Scan :=
  (some found.optc, ⟨words, nextchar, found.optopt.getD optopt⟩)

def processShort (words : List CStr) (c : Chr) (rest : CStr) (optopt : ℤ) :
    Option Chr × Scan :=
  let next := if rest = [] then words.tail else words
  match opts.kind c with
  | .unknown => Found.result ⟨question, some (chrInt c)⟩ next rest optopt
  | .plain => Found.result ⟨c, none⟩ next rest optopt
  | .argument =>
    if rest ≠ [] then Found.result ⟨c, none⟩ words.tail [] optopt
    else
      match next with
      | [] => Found.result ⟨question, some (chrInt c)⟩ [] [] optopt
      | _ :: next => Found.result ⟨c, none⟩ next [] optopt

def getoptLong (sc : Scan) : Option Chr × Scan :=
  match sc.nextchar with
  | c :: rest => opts.processShort sc.words c rest sc.optopt
  | [] =>
    match sc.words with
    | [] => (none, sc)
    | word :: words =>
      if word = endOfOptions then (none, ⟨words, [], sc.optopt⟩)
      else
        match word with
        | d :: c :: rest =>
          if d ≠ dash then (none, sc)
          else if c = dash then (opts.processLong word).result words [] sc.optopt
          else opts.processShort sc.words c rest sc.optopt
        | _ => (none, sc)

structure Token where
  word : CStr
  found : Found
  deriving DecidableEq

def isOptionWord : CStr → Bool
  | d :: c :: rest => d = dash ∧ ¬ (c = dash ∧ rest = [])
  | _ => false

/-- The options of a cluster. An option with an argument takes the rest of the
word; `last` says that no word follows. -/
def cluster (word : CStr) (last : Bool) : CStr → List Token
  | [] => []
  | c :: rest =>
    match opts.kind c with
    | .unknown => ⟨word, question, some (chrInt c)⟩ :: cluster word last rest
    | .plain => ⟨word, c, none⟩ :: cluster word last rest
    | .argument =>
      if rest = [] ∧ last then [⟨word, question, some (chrInt c)⟩] else [⟨word, c, none⟩]

def takesNext : CStr → Bool
  | [] => false
  | c :: rest => if opts.kind c = .argument then rest = [] else takesNext rest

def wordTokens (word : CStr) (last : Bool) : List Token :=
  if word.tail.head? = some dash then [⟨word, opts.processLong word⟩]
  else opts.cluster word last word.tail

def wordTakesNext (word : CStr) : Bool :=
  word.tail.head? ≠ some dash ∧ opts.takesNext word.tail

/-- The options of the words; with `skip` the first one is an argument. -/
def tokens : Bool → List CStr → List Token
  | _, [] => []
  | true, _ :: words => tokens false words
  | false, word :: words =>
    if isOptionWord word then
      opts.wordTokens word words.isEmpty ++ tokens (opts.wordTakesNext word) words
    else []

def operands : Bool → List CStr → List CStr
  | _, [] => []
  | true, _ :: words => operands false words
  | false, word :: words =>
    if word = endOfOptions then words
    else if isOptionWord word then operands (opts.wordTakesNext word) words
    else word :: words

def pending (sc : Scan) : List Token :=
  match sc.nextchar, sc.words with
  | [], words => opts.tokens false words
  | _ :: _, [] => []
  | next@(_ :: _), word :: words =>
    opts.cluster word words.isEmpty next ++ opts.tokens (opts.takesNext next) words

def left (sc : Scan) : List CStr :=
  match sc.nextchar, sc.words with
  | [], words => opts.operands false words
  | _ :: _, [] => []
  | next@(_ :: _), _ :: words => opts.operands (opts.takesNext next) words

def Inside (sc : Scan) : Prop := sc.nextchar ≠ [] → sc.words ≠ []

structure Finds (sc : Scan) (ret : Option Chr × Scan) (t : Token) (tokens : List Token)
    (operands : List CStr) : Prop where
  optc : ret.1 = some t.found.optc
  optopt : ret.2.optopt = t.found.optopt.getD sc.optopt
  word : sc.words.head? = some t.word
  inside : Inside ret.2
  pending : opts.pending ret.2 = tokens
  left : opts.left ret.2 = operands

variable {opts}

theorem processShort_finds (word : CStr) (words : List CStr) (c : Chr) (rest next : CStr)
    (optopt : ℤ) :
    ∃ t ts, opts.cluster word words.isEmpty (c :: rest) ++
        opts.tokens (opts.takesNext (c :: rest)) words = t :: ts ∧
      opts.Finds ⟨word :: words, next, optopt⟩ (opts.processShort (word :: words) c rest optopt)
        t ts (opts.operands (opts.takesNext (c :: rest)) words) := by
  cases hkind : opts.kind c with
  | unknown =>
    refine ⟨⟨word, question, some (chrInt c)⟩, _, by rw [cluster, hkind]; rfl, ?_⟩
    cases rest with
    | nil => constructor <;> simp [processShort, hkind, Found.result, Inside, pending, left,
        takesNext, cluster]
    | cons r rest => constructor <;> simp [processShort, hkind, Found.result, Inside, pending,
        left, takesNext]
  | plain =>
    refine ⟨⟨word, c, none⟩, _, by rw [cluster, hkind]; rfl, ?_⟩
    cases rest with
    | nil => constructor <;> simp [processShort, hkind, Found.result, Inside, pending, left,
        takesNext, cluster]
    | cons r rest => constructor <;> simp [processShort, hkind, Found.result, Inside, pending,
        left, takesNext]
  | argument =>
    cases rest with
    | cons r rest =>
      refine ⟨⟨word, c, none⟩, _, by rw [cluster, hkind]; rfl, ?_⟩
      constructor <;> simp [processShort, hkind, Found.result, Inside, pending, left, takesNext]
    | nil =>
      cases words with
      | nil =>
        refine ⟨⟨word, question, some (chrInt c)⟩, _, by rw [cluster, hkind]; rfl, ?_⟩
        constructor <;> simp [processShort, hkind, Found.result, Inside, pending, left, tokens,
          operands]
      | cons a words =>
        refine ⟨⟨word, c, none⟩, _, by rw [cluster, hkind]; rfl, ?_⟩
        constructor <;> simp [processShort, hkind, Found.result, Inside, pending, left, takesNext,
          tokens, operands]

theorem isOptionWord_iff (d c : Chr) (rest : CStr) :
    isOptionWord (d :: c :: rest) ↔ d = dash ∧ d :: c :: rest ≠ endOfOptions := by
  simp only [isOptionWord, endOfOptions, ne_eq, List.cons.injEq, decide_eq_true_eq]
  constructor
  · rintro ⟨hd, hne⟩
    exact ⟨hd, fun h => hne h.2⟩
  · rintro ⟨hd, hne⟩
    exact ⟨hd, fun h => hne ⟨hd, h⟩⟩

theorem getoptLong_stop (opts : Options) {word : CStr} (h : isOptionWord word = false)
    (words : List CStr) (optopt : ℤ) : opts.tokens false (word :: words) = [] ∧
      opts.getoptLong ⟨word :: words, [], optopt⟩ =
        (none, ⟨opts.operands false (word :: words), [], optopt⟩) := by
  refine ⟨by simp [tokens, h], ?_⟩
  by_cases hend : word = endOfOptions
  · simp [getoptLong, operands, hend]
  · match word with
    | [] => rw [operands, if_neg hend, h]; simp [getoptLong, endOfOptions]
    | [d] => rw [operands, if_neg hend, h]; simp [getoptLong, endOfOptions]
    | d :: c :: rest =>
      have hd : d ≠ dash := fun hd => by
        rw [Bool.eq_false_iff] at h
        exact h ((isOptionWord_iff d c rest).mpr ⟨hd, hend⟩)
      rw [operands, if_neg hend, h]
      simp [getoptLong, hend, hd]

theorem tokens_word (opts : Options) {word : CStr} (h : isOptionWord word) (words : List CStr) :
    opts.tokens false (word :: words) =
        opts.wordTokens word words.isEmpty ++ opts.tokens (opts.wordTakesNext word) words ∧
      opts.operands false (word :: words) = opts.operands (opts.wordTakesNext word) words := by
  have hne : word ≠ endOfOptions := by
    intro heq
    rw [heq] at h
    exact absurd h (by decide)
  exact ⟨by rw [tokens, if_pos h], by rw [operands, if_neg hne, if_pos h]⟩

theorem getoptLong_long {rest : CStr} (hne : dash :: dash :: rest ≠ endOfOptions)
    (words : List CStr) (optopt : ℤ) :
    opts.Finds ⟨(dash :: dash :: rest) :: words, [], optopt⟩
      (opts.getoptLong ⟨(dash :: dash :: rest) :: words, [], optopt⟩)
      ⟨dash :: dash :: rest, opts.processLong (dash :: dash :: rest)⟩ (opts.tokens false words)
      (opts.operands false words) := by
  have hcall : opts.getoptLong ⟨(dash :: dash :: rest) :: words, [], optopt⟩ =
      (opts.processLong (dash :: dash :: rest)).result words [] optopt := by
    rw [getoptLong]
    simp only [if_neg hne, ne_eq, not_true_eq_false, if_false, if_true]
  rw [hcall]
  exact ⟨rfl, rfl, rfl, fun h => absurd rfl h, rfl, rfl⟩

theorem getoptLong_short {c : Chr} (hc : c ≠ dash) (rest : CStr) (words : List CStr) (optopt : ℤ) :
    opts.getoptLong ⟨(dash :: c :: rest) :: words, [], optopt⟩ =
      opts.processShort ((dash :: c :: rest) :: words) c rest optopt := by
  have hne : dash :: c :: rest ≠ endOfOptions := by
    intro heq
    injection heq with _ htail
    injection htail with hdash
    exact hc hdash
  rw [getoptLong]
  simp only [if_neg hne, ne_eq, not_true_eq_false, if_false, if_neg hc]

/-- Each call finds the next option of the grammar, and the call that finds none
leaves the operands. -/
theorem getoptLong_finds (opts : Options) {sc : Scan} (hin : Inside sc) :
    (opts.pending sc = [] ∧ (opts.getoptLong sc).1 = none ∧
      (opts.getoptLong sc).2.words = opts.left sc) ∨
    ∃ t ts, opts.pending sc = t :: ts ∧
      opts.Finds sc (opts.getoptLong sc) t ts (opts.left sc) := by
  obtain ⟨words, nextchar, optopt⟩ := sc
  match nextchar, words with
  | c :: rest, [] => exact absurd rfl (hin (List.cons_ne_nil _ _))
  | c :: rest, word :: words =>
    exact Or.inr (processShort_finds word words c rest (c :: rest) optopt)
  | [], [] => exact Or.inl ⟨rfl, rfl, rfl⟩
  | [], word :: words =>
    cases hword : isOptionWord word with
    | false =>
      obtain ⟨htokens, hcall⟩ := getoptLong_stop opts hword words optopt
      exact Or.inl ⟨htokens, by rw [hcall], by rw [hcall]; rfl⟩
    | true =>
      obtain ⟨htokens, hleft⟩ := tokens_word opts hword words
      match word with
      | [] => cases hword
      | [d] => cases hword
      | d :: c :: rest =>
        obtain ⟨rfl, hend⟩ := (isOptionWord_iff d c rest).mp hword
        right
        simp only [pending, left, htokens, hleft]
        by_cases hc : c = dash
        · subst hc
          exact ⟨_, _, rfl, getoptLong_long hend words optopt⟩
        · have htail : ¬ (dash :: c :: rest).tail.head? = some dash := by simpa using hc
          have htakes : opts.wordTakesNext (dash :: c :: rest) = opts.takesNext (c :: rest) := by
            simp [wordTakesNext, hc]
          rw [wordTokens, if_neg htail, htakes, getoptLong_short hc]
          exact processShort_finds _ words c rest [] optopt

def Found.Marked (found : Found) : Prop := found.optc = question ↔ found.optopt.isSome

/-- `?` is not an option. -/
structure Unambiguous (opts : Options) : Prop where
  short : opts.kind question = .unknown
  long : ∀ o ∈ opts.long, o.val ≠ question

theorem findLong_mem {name : CStr} {c : Chr} (h : opts.findLong name = some c) :
    ∃ o ∈ opts.long, o.val = c := by
  rw [findLong] at h
  cases hfind : opts.long.find? fun o => o.name = name with
  | some o =>
    rw [hfind] at h
    exact ⟨o, List.mem_of_find?_eq_some hfind, Option.some_inj.mp h⟩
  | none =>
    rw [hfind] at h
    cases hpart : opts.long.filter fun o => name <+: o.name with
    | nil =>
      rw [hpart] at h
      cases h
    | cons o os =>
      rw [hpart] at h
      simp only at h
      split_ifs at h
      have ho : o ∈ opts.long.filter fun o => name <+: o.name := hpart ▸ List.mem_cons_self
      exact ⟨o, (List.mem_filter.mp ho).1, Option.some_inj.mp h⟩

theorem processLong_marked (h : Unambiguous opts) (word : CStr) :
    (opts.processLong word).Marked := by
  cases hfind : opts.findLong ((word.drop 2).takeWhile fun c => c ≠ equals) with
  | none =>
    rw [processLong, hfind]
    exact iff_of_true rfl rfl
  | some c =>
    obtain ⟨o, ho, rfl⟩ := findLong_mem hfind
    rw [processLong, hfind]
    simp only
    split_ifs
    · exact iff_of_true rfl rfl
    · exact iff_of_false (h.long o ho) (by simp)

theorem cluster_marked (h : Unambiguous opts) (word : CStr) (last : Bool) (next : CStr) :
    ∀ t ∈ opts.cluster word last next, t.found.Marked := by
  induction next with
  | nil => exact fun t ht => absurd ht List.not_mem_nil
  | cons c rest ih =>
    have hoption : opts.kind c ≠ .unknown → Found.Marked ⟨c, none⟩ := by
      intro hc
      refine iff_of_false (fun heq => hc ?_) (by simp)
      rw [show c = question from heq, h.short]
    intro t ht
    rw [cluster] at ht
    cases hkind : opts.kind c with
    | unknown =>
      rw [hkind] at ht
      rcases List.mem_cons.mp ht with rfl | ht
      · exact iff_of_true rfl rfl
      · exact ih t ht
    | plain =>
      rw [hkind] at ht
      rcases List.mem_cons.mp ht with rfl | ht
      · exact hoption (by rw [hkind]; decide)
      · exact ih t ht
    | argument =>
      rw [hkind] at ht
      simp only at ht
      split_ifs at ht
      · rw [List.mem_singleton.mp ht]
        exact iff_of_true rfl rfl
      · rw [List.mem_singleton.mp ht]
        exact hoption (by rw [hkind]; decide)

theorem tokens_marked (h : Unambiguous opts) (skip : Bool) (words : List CStr) :
    ∀ t ∈ opts.tokens skip words, t.found.Marked := by
  induction words generalizing skip with
  | nil =>
    intro t ht
    rw [tokens] at ht
    exact absurd ht List.not_mem_nil
  | cons word words ih =>
    intro t ht
    cases skip with
    | true => exact ih false t ht
    | false =>
      rw [tokens] at ht
      split_ifs at ht
      · rcases List.mem_append.mp ht with ht | ht
        · rw [wordTokens] at ht
          split_ifs at ht
          · rw [List.mem_singleton.mp ht]
            exact processLong_marked h word
          · exact cluster_marked h word _ _ t ht
        · exact ih _ t ht
      · exact absurd ht List.not_mem_nil

end Options
end IsbnHyphenate
