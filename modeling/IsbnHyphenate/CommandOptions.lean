import IsbnHyphenate.IsbnMain

/-!
# What the options of a command line do

The option loop, with a `getopt_long` that resumes inside a word, reads the
options of the grammar one after the other and leaves its operands. From there
on a command line is its list of options.
-/

namespace IsbnHyphenate.Command
open Logged Options

def readTokens (w : World) (name : CStr) (optopt : ℤ) (st : Settings) :
    List Token → Prog Settings
  | [] =>
    if st.errCount > 10 then do
      tooManyErrors name
      pure st
    else pure st
  | t :: ts =>
    if st.errCount > 10 then do
      tooManyErrors name
      pure st
    else do
      let st ← handleOption w name (some t.word) t.found.optc (t.found.optopt.getD optopt) st
      readTokens w name (t.found.optopt.getD optopt) st ts

variable {w : World} {name : CStr}

theorem optionLoop_reads (w : World) (name : CStr) (fuel : ℕ) (sc : Scan) (st : Settings)
    (hin : Inside sc) (hfuel : (options.pending sc).length < fuel) :
    ∃ words, optionLoop w name fuel sc st =
        readTokens w name sc.optopt st (options.pending sc) >>= (fun st' => pure (words, st')) ∧
      ∀ st', (readTokens w name sc.optopt st (options.pending sc)).ret = .ok st' →
        st'.errCount ≤ 10 → words = options.left sc := by
  induction fuel generalizing sc st with
  | zero => exact absurd hfuel (Nat.not_lt_zero _)
  | succ fuel ih =>
    by_cases hmany : st.errCount > 10
    · refine ⟨sc.words, ?_, ?_⟩
      · cases options.pending sc <;> simp [optionLoop, readTokens, hmany, tooManyErrors, eputs,
          emit, pure_eq]
      · intro st' hret hfew
        have hst : st' = st := by
          cases hp : options.pending sc <;> rw [hp] at hret <;>
            simpa [readTokens, hmany, tooManyErrors, eputs, emit, pure_eq, eq_comm] using hret
        rw [hst] at hfew
        exact absurd hmany (Nat.not_lt.mpr hfew)
    · rcases getoptLong_finds options hin with ⟨hnil, hnone, hwords⟩ | ⟨t, ts, hp, hf⟩
      · refine ⟨options.left sc, ?_, fun _ _ _ => rfl⟩
        rw [hnil, readTokens, if_neg hmany, optionLoop, if_neg hmany]
        rw [← hwords]
        generalize options.getoptLong sc = ret at hnone
        obtain ⟨ret, sc'⟩ := ret
        cases hnone
        rfl
      · rw [hp] at hfuel ⊢
        have hloop : optionLoop w name (fuel + 1) sc st =
            handleOption w name (some t.word) t.found.optc (t.found.optopt.getD sc.optopt) st >>=
              optionLoop w name fuel (options.getoptLong sc).2 := by
          rw [optionLoop, if_neg hmany, ← hf.word, ← hf.optopt]
          have hoptc := hf.optc
          generalize options.getoptLong sc = ret at hoptc
          obtain ⟨ret, sc'⟩ := ret
          cases hoptc
          rfl
        rw [hloop, readTokens, if_neg hmany]
        generalize handleOption w name (some t.word) t.found.optc
          (t.found.optopt.getD sc.optopt) st = call
        obtain ⟨log, ret⟩ := call
        cases ret with
        | error e => exact ⟨options.left sc, rfl, fun st' hret => by cases hret⟩
        | ok st₁ =>
          obtain ⟨words, hrest, hleft⟩ := ih _ st₁ hf.inside (by
            rw [hf.pending]
            exact Nat.lt_of_succ_lt_succ hfuel)
          rw [hf.pending, hf.optopt] at hrest hleft
          rw [hf.left] at hleft
          refine ⟨words, ?_, hleft⟩
          rw [Logged.bind_assoc]
          simp only [bind_ok, hrest]

theorem handleOption_ends {word : CStr} {optc : Chr} {optopt : ℤ} {st : Settings} {e : Stop}
    (h : (handleOption w name (some word) optc optopt st).ret = .error e) :
    e = .exit 0 ∨ e = .exit 2 := by
  have hnotices : ∀ texts : List CStr,
      (texts.foldr (fun s rest => fprintl s >>= fun _ => rest) (pure ())).ret = .ok () := by
    intro texts
    induction texts with
    | nil => rfl
    | cons s texts ih =>
      rw [List.foldr_cons, bind_ret]
      exact ih
  have hunknown : (unknownOption name word optopt).ret = .ok () := by
    rw [unknownOption, bind_ret]
    split_ifs <;> rfl
  rw [handleOption] at h
  simp only at h
  generalize (if optc = question ∧ optopt = 63 then chr 'h' else optc) = c at h
  split_ifs at h
  · rw [bind_ret, showProgramVersion, hnotices] at h
    cases h
    exact Or.inl rfl
  · cases h
    exact Or.inl rfl
  · rw [bind_ret, hunknown] at h
    cases h
  · cases h
    exact Or.inr rfl

theorem readTokens_ends (ts : List Token) {optopt : ℤ} {st : Settings} {e : Stop}
    (h : (readTokens w name optopt st ts).ret = .error e) : e = .exit 0 ∨ e = .exit 2 := by
  induction ts generalizing optopt st with
  | nil =>
    rw [readTokens] at h
    split_ifs at h
    cases h
  | cons t ts ih =>
    rw [readTokens] at h
    split_ifs at h
    · cases h
    · rw [bind_ret] at h
      cases hret : (handleOption w name (some t.word) t.found.optc
          (t.found.optopt.getD optopt) st).ret with
      | error e' =>
        rw [hret] at h
        cases h
        exact handleOption_ends hret
      | ok st' =>
        rw [hret] at h
        exact ih h

/-- For every command line: with a call for each option and one more the loop is
the reading of its options, leaves its operands unless there are too many errors,
and ends in no other way than with the status 0 or 2. -/
theorem option_loop (w : World) (name : CStr) (fuel : ℕ) (args : List CStr) (st : Settings)
    (hfuel : (options.tokens false args).length < fuel) :
    ∃ words, optionLoop w name fuel ⟨args, [], 0⟩ st =
        readTokens w name 0 st (options.tokens false args) >>= (fun st' => pure (words, st')) ∧
      (∀ st', (readTokens w name 0 st (options.tokens false args)).ret = .ok st' →
        st'.errCount ≤ 10 → words = options.operands false args) ∧
      ∀ e, (optionLoop w name fuel ⟨args, [], 0⟩ st).ret = .error e →
        e = .exit 0 ∨ e = .exit 2 := by
  obtain ⟨words, hloop, hwords⟩ := optionLoop_reads w name fuel
    ⟨args, [], 0⟩ st (fun h => absurd rfl h) hfuel
  refine ⟨words, hloop, hwords, fun e he => ?_⟩
  rw [hloop, bind_ret] at he
  cases hret : (readTokens w name 0 st (options.pending ⟨args, [], 0⟩)).ret with
  | error e' =>
    rw [hret] at he
    cases he
    exact readTokens_ends _ hret
  | ok st' =>
    rw [hret] at he
    cases he

def sampleWorld (document : Traced.Document) (input : CStr) : World where
  sz := sizes
  slack := fun _ => sizeofFst
  document := document
  notices := []
  stdin := ⟨bytesOf input, false, false⟩
  access := fun _ => true
  fopen := fun _ => .error ENOENT
  fclose := fun _ => true
  behind := fun _ _ => 0
  stale := fun _ _ => 0

theorem option_loop_sample :
    ∃ words st', (optionLoop (sampleWorld none []) (say "isbn-hyphenate") 5
        ⟨[say "-vxd", say "--ar", endOfOptions, say "-d"], [], 0⟩
        ⟨false, false, false, false, 0, 7⟩).ret = .ok (words, st') ∧
      words = [say "-d"] ∧ st'.errCount = 1 := by
  obtain ⟨words, hloop, hwords, -⟩ := option_loop (sampleWorld none []) (say "isbn-hyphenate") 5
    [say "-vxd", say "--ar", endOfOptions, say "-d"] ⟨false, false, false, false, 0, 7⟩
    (by decide)
  have hread : ((readTokens (sampleWorld none []) (say "isbn-hyphenate") 0
      ⟨false, false, false, false, 0, 7⟩ (options.tokens false
        [say "-vxd", say "--ar", endOfOptions, say "-d"])).ret >>= fun st' =>
      .ok st'.errCount) = .ok 1 := by decide +kernel
  obtain ⟨st', hret, hcount⟩ := run_bind_ok hread
  have hone : st'.errCount = 1 := Except.ok.inj hcount
  refine ⟨words, st', ?_, (hwords st' hret (by omega)).trans (by decide), hone⟩
  rw [hloop, bind_ret, hret]
  rfl

theorem main_reads (w : World) (rv : ℤ) (path : CStr) {fuel : ℕ} {args : List CStr}
    (hfuel : (options.tokens false args).length < fuel) :
    ∃ words, main w rv fuel path args =
        readTokens w (sname path) 0 ⟨false, false, false, false, 0, rv⟩
          (options.tokens false args) >>= runCommand w (sname path) fuel words ∧
      ∀ st', (readTokens w (sname path) 0 ⟨false, false, false, false, 0, rv⟩
          (options.tokens false args)).ret = .ok st' →
        st'.errCount ≤ 10 → words = options.operands false args := by
  obtain ⟨words, hloop, hwords⟩ := optionLoop_reads w (sname path) fuel
    ⟨args, [], 0⟩ ⟨false, false, false, false, 0, rv⟩ (fun h => absurd rfl h) hfuel
  refine ⟨words, ?_, hwords⟩
  rw [main, hloop, Logged.bind_assoc]
  rfl

def isOption (c : Char) (t : Token) : Bool := t.found.optc = chr c

/-- `-v`, `-d` and `--argv`. -/
def Flag (t : Token) : Prop := isOption 'v' t ∨ isOption 'd' t ∨ isOption 'A' t

instance : DecidablePred Flag := fun t =>
  inferInstanceAs
    (Decidable (isOption 'v' t = true ∨ isOption 'd' t = true ∨ isOption 'A' t = true))

def settled (st : Settings) (ts : List Token) : Settings where
  verbose := st.verbose || ts.any (isOption 'v')
  debug := st.debug || ts.any (isOption 'd')
  optArgv := st.optArgv || ts.any (isOption 'A')
  dprint := st.dprint && !ts.any (isOption 'd')
  errCount := st.errCount
  rv := if ts = [] then st.rv else 0

theorem handleOption_flag {t : Token} (ht : Flag t) (word : Option CStr) (optopt : ℤ)
    (st : Settings) : handleOption w name word t.found.optc optopt st =
      pure (settled st [t]) := by
  have hne : ∀ {c d : Char}, chr c ≠ chr d → t.found.optc = chr c → t.found.optc ≠ chr d :=
    fun hcd hc hd => hcd (hc.symm.trans hd)
  simp only [Flag, isOption, decide_eq_true_eq] at ht
  rcases ht with hc | hc | hc <;>
    simp +decide [handleOption, settled, isOption, hc]

theorem settled_cons (st : Settings) (t : Token) (ts : List Token) :
    settled (settled st [t]) ts = settled st (t :: ts) := by
  simp [settled, Bool.or_assoc, Bool.and_assoc]

theorem readTokens_flags (w : World) (name : CStr) (ts : List Token) (hts : ∀ t ∈ ts, Flag t)
    (optopt : ℤ) (st : Settings) (hfew : st.errCount ≤ 10) :
    readTokens w name optopt st ts = pure (settled st ts) := by
  induction ts generalizing optopt st with
  | nil =>
    rw [readTokens, if_neg (Nat.not_lt.mpr hfew)]
    simp [settled]
  | cons t ts ih =>
    rw [List.forall_mem_cons] at hts
    have hrest := ih hts.2 (t.found.optopt.getD optopt) (settled st [t]) hfew
    rw [settled_cons] at hrest
    rw [readTokens, if_neg (Nat.not_lt.mpr hfew), handleOption_flag hts.1]
    exact hrest

theorem options_unambiguous : Unambiguous options := by
  constructor <;> decide

def lastUnknown (optopt : ℤ) (ts : List Token) : ℤ :=
  ts.foldl (fun optopt t => t.found.optopt.getD optopt) optopt

theorem readTokens_append (ts more : List Token) {optopt : ℤ} {st st' : Settings}
    (h : (readTokens w name optopt st ts).ret = .ok st') (hfew : st'.errCount ≤ 10) :
    readTokens w name optopt st (ts ++ more) =
      ⟨(readTokens w name optopt st ts).log ++
          (readTokens w name (lastUnknown optopt ts) st' more).log,
        (readTokens w name (lastUnknown optopt ts) st' more).ret⟩ := by
  have hgo : ∀ {st : Settings}, Except.ok st = (Except.ok st' : Run Settings) →
      ¬ st.errCount > 10 := by
    intro st heq
    rw [Except.ok.inj heq]
    exact Nat.not_lt.mpr hfew
  induction ts generalizing optopt st with
  | nil =>
    rw [readTokens] at h ⊢
    split_ifs at h ⊢ with hmany
    · exact absurd hmany (hgo h)
    · cases h
      rfl
  | cons t ts ih =>
    rw [List.cons_append]
    rw [readTokens] at h ⊢
    rw [readTokens]
    by_cases hmany : st.errCount > 10
    · rw [if_pos hmany] at h
      exact absurd hmany (hgo h)
    · rw [if_neg hmany] at h ⊢
      rw [if_neg hmany]
      obtain ⟨st₁, h₁, h₂⟩ := of_bind_ok h
      rw [bind_of_ok h₁, bind_of_ok h₁, ih h₂]
      simp only [lastUnknown, List.foldl_cons, List.append_assoc]

def Passes (t : Token) : Prop := Flag t ∨ t.found.optc = question ∧ ∃ o ∈ t.found.optopt, o ≠ 63

def isError (t : Token) : Bool := t.found.optc = question

theorem handleOption_passes (w : World) (name : CStr) {t : Token} (ht : Passes t)
    (word : CStr) (optopt : ℤ) (st : Settings) :
    ∃ st', (handleOption w name (some word) t.found.optc
        (t.found.optopt.getD optopt) st).ret = .ok st' ∧
      st'.errCount = st.errCount + if isError t then 1 else 0 := by
  rcases ht with hflag | ⟨hq, o, ho, h63⟩
  · have hopt : isError t = false := by
      simp only [Flag, isOption, decide_eq_true_eq] at hflag
      rcases hflag with hc | hc | hc <;> simp +decide [isError, hc]
    refine ⟨settled st [t], by rw [handleOption_flag hflag]; rfl, ?_⟩
    rw [hopt]
    rfl
  · have hopt : isError t = true := by simp [isError, hq]
    have hunknown : (unknownOption name word o).ret = .ok () := by
      rw [unknownOption, bind_ret]
      split_ifs <;> rfl
    refine ⟨{ st with rv := 0, errCount := st.errCount + 1 }, ?_, by rw [hopt]; rfl⟩
    rw [Option.mem_def.mp ho, Option.getD_some, hq, handleOption]
    have hV : question ≠ chr 'V' := by decide
    have hh : question ≠ chr 'h' := by decide
    have hd : question ≠ chr 'd' := by decide
    have hv : question ≠ chr 'v' := by decide
    have hA : question ≠ chr 'A' := by decide
    simp only [h63, and_false, if_false, if_neg hV, if_neg hh, if_neg hd, if_neg hv, if_neg hA,
      if_true, bind_ret, hunknown, run_ok_bind]
    rfl

theorem readTokens_passes (w : World) (name : CStr) (ts : List Token) (hts : ∀ t ∈ ts, Passes t)
    (optopt : ℤ) (st : Settings) (hfew : st.errCount + ts.countP isError ≤ 10) :
    ∃ st', (readTokens w name optopt st ts).ret = .ok st' ∧
      st'.errCount = st.errCount + ts.countP isError := by
  have hmany : ¬ st.errCount > 10 := by omega
  induction ts generalizing optopt st with
  | nil => exact ⟨st, by rw [readTokens, if_neg hmany]; rfl, rfl⟩
  | cons t ts ih =>
    rw [List.forall_mem_cons] at hts
    rw [List.countP_cons] at hfew ⊢
    obtain ⟨st₁, h₁, herr⟩ := handleOption_passes w name hts.1 t.word optopt st
    obtain ⟨st', h', hcount⟩ := ih hts.2 (t.found.optopt.getD optopt) st₁ (by omega) (by omega)
    refine ⟨st', ?_, by omega⟩
    rw [readTokens, if_neg hmany, bind_of_ok h₁]
    exact h'

def internalError (name : CStr) (optopt : ℤ) : List Out :=
  ((name ++ say ": INTERNAL ERROR: unknown option, '").map fun c => .eprint c.1) ++
    (.eprint (UInt8.ofNat (optopt % 256).toNat) :: (say "'\n").map fun c => .eprint c.1)

/-- `-E`, `-H` or `-w`, which the option string has and the loop does not know. -/
def Unhandled (t : Token) : Prop := isOption 'E' t ∨ isOption 'H' t ∨ isOption 'w' t

theorem handleOption_unhandled {t : Token} (ht : Unhandled t) (hmark : t.found.Marked)
    (word : CStr) (optopt : ℤ) (st : Settings) :
    handleOption w name (some word) t.found.optc (t.found.optopt.getD optopt) st =
      ⟨internalError name optopt, .error (.exit 2)⟩ := by
  simp only [Unhandled, isOption, decide_eq_true_eq] at ht
  have hq : t.found.optc ≠ question := by
    rcases ht with hc | hc | hc <;> rw [hc] <;> decide
  have hnone : t.found.optopt = none := by
    cases ho : t.found.optopt with
    | none => rfl
    | some o => exact absurd (hmark.mpr (by rw [ho]; rfl)) hq
  have hother : t.found.optc ≠ chr 'V' ∧ t.found.optc ≠ chr 'h' ∧ t.found.optc ≠ chr 'd' ∧
      t.found.optc ≠ chr 'v' ∧ t.found.optc ≠ chr 'A' := by
    rcases ht with hc | hc | hc <;> rw [hc] <;> decide
  obtain ⟨hV, hh, hd, hv, hA⟩ := hother
  rw [hnone, Option.getD_none, handleOption]
  simp only [hq, false_and, if_false, if_neg hV, if_neg hh, if_neg hd, if_neg hv, if_neg hA]
  simp [eputs, eputchar, emit, quit, internalError]

def saysVerbose (ts : List Token) : Bool := ts.any (isOption 'v') || ts.any (isOption 'd')

theorem main_settled (w : World) (rv : ℤ) (path : CStr) {fuel : ℕ} {args : List CStr}
    (hfuel : (options.tokens false args).length < fuel)
    (hflags : ∀ t ∈ options.tokens false args, Flag t) :
    main w rv fuel path args =
      runCommand w (sname path) fuel (options.operands false args)
        (settled ⟨false, false, false, false, 0, rv⟩ (options.tokens false args)) := by
  obtain ⟨words, hmain, hwords⟩ := main_reads w rv path hfuel
  rw [readTokens_flags w (sname path) _ hflags 0
    ⟨false, false, false, false, 0, rv⟩ (Nat.zero_le _)] at hmain hwords
  rw [hmain, hwords _ rfl (Nat.zero_le _)]
  rfl

theorem settled_verbose (rv : ℤ) (ts : List Token) :
    ((settled ⟨false, false, false, false, 0, rv⟩ ts).verbose ||
      (settled ⟨false, false, false, false, 0, rv⟩ ts).debug) = saysVerbose ts := by
  simp [settled, saysVerbose]

def stdoutOf (log : List Out) : List UInt8 :=
  log.filterMap fun o => match o with
    | .stdout b => some b
    | .eprint _ => none

def visible {α : Type} (x : Prog α) : Logged UInt8 Stop α := ⟨stdoutOf x.log, x.ret⟩

theorem visible_bind {α β : Type} (x : Prog α) (f : α → Prog β) :
    visible (x >>= f) = visible x >>= fun a => visible (f a) := by
  obtain ⟨log, ret⟩ := x
  cases ret with
  | ok a =>
    rw [Logged.bind_ok, visible, visible, Logged.bind_ok]
    simp only [stdoutOf, List.filterMap_append, visible]
  | error e => rfl

theorem visible_puts (s : CStr) : visible (puts s) = emit (bytesOf s) := by
  have hout : stdoutOf (s.map fun c => Out.stdout c.1) = bytesOf s := by
    rw [stdoutOf, List.filterMap_map, bytesOf, ← List.filterMap_eq_map]
    rfl
  rw [visible, puts, emit, hout]
  rfl

theorem visible_onEprint {α : Type} (x : Traced.Noisy α) :
    visible (onEprint x) = silent x.ret := by
  have hout : stdoutOf (x.log.map fun c => Out.eprint c.1) = [] := by
    rw [stdoutOf, List.filterMap_map]
    exact List.filterMap_eq_nil_iff.mpr fun c _ => rfl
  rw [visible, onEprint, hout]
  rfl

theorem visible_eputs (s : CStr) : visible (eputs s) = pure () :=
  visible_onEprint ⟨s, .ok ()⟩

theorem showOperands_visible {verbose : Bool} {filev : List CStr}
    (hshown : verbose = true → Traced.Showable filev) :
    visible (showOperands verbose filev) = pure () := by
  have hlist : ∀ args, visible (listOperands args) = pure () := by
    intro args
    induction args with
    | nil => rfl
    | cons arg args ih =>
      rw [listOperands, visible_bind, visible_eputs]
      simp only [visible_bind, visible_eputs, ih]
      rfl
  cases verbose with
  | false => rfl
  | true =>
    have hshow := (Traced.fshowStrArray_ret filev).mpr (hshown rfl)
    rw [showOperands, if_pos rfl, visible_bind, visible_onEprint, hshow]
    by_cases hnil : filev = []
    · simp only [if_pos hnil]
      rfl
    · simp only [if_neg hnil, visible_bind, visible_eputs, hlist]
      rfl

end IsbnHyphenate.Command
