import IsbnHyphenate.CommandOptions

/-!
# Runs that read files or the standard input

`dprint_fh` is NULL in every run, so the trace of a line ends the run before
`hyphenate_isbn` is called for it. Without `--argv` the command prints no ISBN,
whatever it reads.
-/

namespace IsbnHyphenate.Command
open Logged Options

def Quiet {α : Type} (x : Prog α) : Prop := Writes (fun o => ∃ b, o = Out.eprint b) x

theorem quiet_onEprint {α : Type} (x : Traced.Noisy α) : Quiet (onEprint x) := by
  intro o ho
  obtain ⟨c, -, rfl⟩ := List.mem_map.mp ho
  exact ⟨c.1, rfl⟩

theorem quiet_eputs (s : CStr) : Quiet (eputs s) := quiet_onEprint ⟨s, .ok ()⟩

theorem quiet_eputchar (c : ℤ) : Quiet (eputchar c) := by
  intro o ho
  exact ⟨_, List.mem_singleton.mp ho⟩

theorem Quiet.visible {α : Type} {x : Prog α} (h : Quiet x) : (visible x).log = [] := by
  refine List.filterMap_eq_nil_iff.mpr fun o ho => ?_
  obtain ⟨b, rfl⟩ := h o ho
  rfl

theorem quiet_seq {α : Type} {x : Prog Unit} {y : Prog α} (hx : Quiet x) (hy : Quiet y) :
    Quiet (x >>= fun _ => y) := hx.bind fun _ _ => hy

theorem tracedLine_closed (isbn : Option RangeTable) (behind : ℕ → ℕ → UInt8) (n : ℕ) (s : CStr) :
    (tracedLine false isbn behind n s).ret = .error .badRead := rfl

section Stream
variable {sz : Sizes} {stale : ℕ → ℕ → UInt8} {hyphenate : ℕ → CStr → Hyphenation} {e : Stop}

theorem streamLoop_unprinted (hstop : ∀ n s, (hyphenate n s).ret = .error e) (fuel n : ℕ)
    (lbuf : LineBuf) : (streamLoop sz stale hyphenate fuel n lbuf).printed = [] := by
  induction fuel generalizing n lbuf with
  | zero => rfl
  | succ fuel ih =>
    rw [streamLoop]
    cases fgetline sz lbuf with
    | error e => rfl
    | ok lbuf =>
      simp only
      split_ifs
      · rfl
      · exact ih n lbuf
      · cases lbuf.string (stale n) with
        | none => rfl
        | some t => simp only [hstop]

/-- No line but the last one is anything but empty. -/
def Blank (stream : CStr) : Prop := nonEmpty (linesOf stream).dropLast = []

instance : DecidablePred Blank := fun _ => inferInstanceAs (Decidable (_ = []))

theorem streamLoop_stops (sz : Sizes) (hstop : ∀ n s, (hyphenate n s).ret = .error e)
    (stream : CStr) (lbuf : LineBuf) {eof : Bool} {fuel : ℕ} (n : ℕ)
    (hfits : FitsSegment sz (linesOf stream))
    (hfile : lbuf.file = ⟨bytesOf stream, false, eof⟩) (heof : lbuf.eof = false)
    (hfuel : (linesOf stream).length ≤ fuel) :
    (streamLoop sz stale hyphenate fuel n lbuf).ret = if Blank stream then .ok 0 else .error e := by
  induction stream using lines_induction generalizing lbuf fuel n with
  | last l hl =>
    obtain ⟨lbuf₁, hget, hfile₁, -⟩ := fgetline_eq sz lbuf
    obtain ⟨lbuf', hcall, -, -, hend, -⟩ := getLine_last sz hl (hfile₁.trans hfile)
    have hblank : Blank l := by rw [Blank, linesOf_last hl]; rfl
    rw [linesOf_last hl] at hfuel
    cases fuel with
    | zero => exact absurd hfuel (Nat.not_succ_le_zero _)
    | succ fuel => simp [streamLoop, hget, hcall, hend, hblank]
  | line l rest hl ih =>
    obtain ⟨lbuf₁, hget, hfile₁, heof₁⟩ := fgetline_eq sz lbuf
    obtain ⟨lbuf', hcall, hfile', hlen, heof', htext⟩ :=
      getLine_line sz hl (hfile₁.trans hfile)
    have hgo : lbuf'.eof = false := heof'.trans (heof₁.trans heof)
    rw [linesOf_line rest hl] at hfits hfuel
    rw [fitsSegment_line l (linesOf_ne_nil rest)] at hfits
    have hblank : Blank (l ++ newlineChr :: rest) ↔ l = [] ∧ Blank rest := by
      rw [Blank, Blank, linesOf_line rest hl, List.dropLast_cons_of_ne_nil (linesOf_ne_nil rest)]
      by_cases hnil : l = [] <;> simp [nonEmpty, hnil]
    cases fuel with
    | zero => exact absurd hfuel (Nat.not_succ_le_zero _)
    | succ fuel =>
      by_cases hnil : l = []
      · have hrest := ih lbuf' n hfits.2 hfile' hgo (Nat.le_of_succ_le_succ hfuel)
        subst hnil
        simp only [streamLoop, hget, hcall, hgo, Bool.false_eq_true, if_false, hlen,
          List.length_nil, if_true, hrest]
        exact if_congr (hblank.trans (and_iff_right rfl)).symm rfl rfl
      · have hne : lbuf'.len ≠ 0 := by
          rw [hlen]
          simpa using hnil
        have hbroken : ¬ Blank (l ++ newlineChr :: rest) := fun h => hnil (hblank.mp h).1
        simp only [streamLoop, hget, hcall, hgo, Bool.false_eq_true, if_false, if_neg hne,
          lbuf'.string_of_text (stale n) (htext.mpr hfits.1), hstop, if_neg hbroken]

end Stream

theorem isbnStream_quiet (w : World) {st : Settings} (hclosed : st.dprint = false)
    (isbn : Option RangeTable) (fuel : ℕ) (f : File) : Quiet (isbnStream w st isbn fuel f) := by
  rw [isbnStream, hclosed]
  by_cases hdebug : st.debug = true
  · rw [if_pos ⟨hdebug, by decide⟩]
    exact .quit _
  · rw [if_neg fun h => hdebug h.1]
    intro o ho
    simp only [streamLoop_unprinted fun n s => tracedLine_closed isbn w.behind n s] at ho
    exact absurd ho List.not_mem_nil

section Command
variable {w : World} {name : CStr}

theorem showOperands_quiet (verbose : Bool) (filev : List CStr) :
    Quiet (showOperands verbose filev) := by
  have hlist : ∀ args, Quiet (listOperands args) := by
    intro args
    induction args with
    | nil => exact .pure _
    | cons arg args ih => exact quiet_seq (quiet_eputs _) (quiet_seq (quiet_eputs _) ih)
  rw [showOperands]
  split_ifs
  · exact quiet_seq (quiet_onEprint _) (.pure _)
  · exact quiet_seq (quiet_onEprint _) (quiet_seq (quiet_eputs _) (hlist filev))
  · exact .pure _

theorem filevProbe_quiet (anyRv : ℤ) (filev : List CStr) : Quiet (filevProbe w anyRv filev) := by
  induction filev generalizing anyRv with
  | nil => exact .pure _
  | cons fname filev ih =>
    refine Writes.bind ?_ fun rv _ => ih _
    rw [fnameProbe]
    split_ifs
    · exact .pure _
    · exact .pure _
    · exact quiet_seq (quiet_eputs _) (quiet_seq (quiet_onEprint _)
        (quiet_seq (quiet_eputs _) (quiet_seq (quiet_eputs _) (.pure _))))

theorem filevIsbn_quiet {st : Settings} (hclosed : st.dprint = false) (isbn : Option RangeTable)
    (fuel : ℕ) (filev : List CStr) : Quiet (filevIsbn w st isbn fuel filev) := by
  induction filev with
  | nil => exact .pure _
  | cons fname filev ih =>
    rw [filevIsbn]
    cases w.fopen fname with
    | error err => exact quiet_seq (quiet_eputs _) (quiet_seq (quiet_eputs _) (.pure _))
    | ok f =>
      refine (isbnStream_quiet w hclosed isbn fuel f).bind fun rv _ => ?_
      split_ifs
      · exact quiet_seq (quiet_eputs _) (.pure _)
      · exact ih
      · exact quiet_seq (quiet_eputs _) (.pure _)

theorem usage_quiet : Quiet (usage name) :=
  quiet_seq (quiet_eputs _) (quiet_seq (quiet_eputs _) (quiet_seq (quiet_eputs _) (quiet_eputs _)))

theorem runCommand_quiet (fuel : ℕ) (filev : List CStr) {st : Settings}
    (hargv : st.optArgv = false) (hdebug : st.dprint = false) :
    Quiet (runCommand w name fuel filev st) := by
  refine (showOperands_quiet _ filev).bind fun _ _ => ?_
  by_cases herr : st.errCount = 0
  · rw [if_neg (not_not.mpr herr)]
    refine (quiet_onEprint _).bind fun tab _ => ?_
    obtain ⟨isbn, fst⟩ := tab
    simp only
    split_ifs
    · exact .quit _
    · refine Writes.bind ?_ fun rv _ => .quit _
      rw [processIsbns, hargv, if_neg (by decide)]
      split_ifs
      · exact isbnStream_quiet w hdebug _ fuel w.stdin
      · refine (filevProbe_quiet 0 filev).bind fun rv _ => ?_
        split_ifs
        · exact .quit _
        · exact filevIsbn_quiet hdebug _ fuel filev
    · exact .quit _
  · rw [if_pos herr]
    exact quiet_seq usage_quiet (.quit _)

def Helps (t : Token) : Prop :=
  isOption 'V' t ∨ isOption 'h' t ∨ t.found.optopt = some 63

instance : DecidablePred Helps := fun t =>
  inferInstanceAs (Decidable (isOption 'V' t = true ∨ isOption 'h' t = true ∨ _))

theorem handleOption_quiet (w : World) (name : CStr) {t : Token} (hmark : t.found.Marked)
    (hhelp : ¬ Helps t) (hargv : ¬ isOption 'A' t) (word : CStr) (optopt : ℤ) (st : Settings) :
    Quiet (handleOption w name (some word) t.found.optc (t.found.optopt.getD optopt) st) ∧
      ∀ st', (handleOption w name (some word) t.found.optc (t.found.optopt.getD optopt) st).ret =
        .ok st' → st'.optArgv = st.optArgv ∧ (st.dprint = false → st'.dprint = false) := by
  have hask : ¬ (t.found.optc = question ∧ t.found.optopt.getD optopt = 63) := by
    rintro ⟨hq, h63⟩
    obtain ⟨o, ho⟩ := Option.isSome_iff_exists.mp (hmark.mp hq)
    rw [ho, Option.getD_some] at h63
    exact hhelp (Or.inr (Or.inr (ho.trans (congrArg some h63))))
  have hV : t.found.optc ≠ chr 'V' := fun hc => hhelp (Or.inl (by simp [isOption, hc]))
  have hh : t.found.optc ≠ chr 'h' := fun hc => hhelp (Or.inr (Or.inl (by simp [isOption, hc])))
  have hA : t.found.optc ≠ chr 'A' := fun hc => hargv (by simp [isOption, hc])
  rw [handleOption]
  simp only [if_neg hask, if_neg hV, if_neg hh, if_neg hA]
  split_ifs
  · exact ⟨.pure _, fun st' h => by cases h; exact ⟨rfl, fun _ => rfl⟩⟩
  · exact ⟨.pure _, fun st' h => by cases h; exact ⟨rfl, id⟩⟩
  · refine ⟨Writes.bind ?_ fun _ _ => .pure _, fun st' h => ?_⟩
    · rw [unknownOption]
      refine quiet_seq (quiet_eputs _) ?_
      split_ifs <;> exact quiet_eputs _
    · obtain ⟨_, _, hret⟩ := of_bind_ok h
      cases hret
      exact ⟨rfl, id⟩
  · refine ⟨quiet_seq (quiet_eputs _) (quiet_seq (quiet_eputchar _)
      (quiet_seq (quiet_eputs _) (.quit _))), fun st' h => ?_⟩
    cases h

theorem readTokens_quiet (w : World) (name : CStr) (ts : List Token)
    (hmark : ∀ t ∈ ts, t.found.Marked) (hts : ∀ t ∈ ts, ¬ Helps t ∧ ¬ isOption 'A' t)
    (optopt : ℤ) (st : Settings) :
    Quiet (readTokens w name optopt st ts) ∧
      ∀ st', (readTokens w name optopt st ts).ret = .ok st' →
        st'.optArgv = st.optArgv ∧ (st.dprint = false → st'.dprint = false) := by
  have hbroken : ∀ st : Settings,
      Quiet (tooManyErrors name >>= fun _ => (pure st : Prog Settings)) ∧
        ∀ st', (tooManyErrors name >>= fun _ => (pure st : Prog Settings)).ret = .ok st' →
          st'.optArgv = st.optArgv ∧ (st.dprint = false → st'.dprint = false) := fun st =>
    ⟨quiet_seq (quiet_eputs _) (.pure _), fun st' h => by cases h; exact ⟨rfl, id⟩⟩
  induction ts generalizing optopt st with
  | nil =>
    rw [readTokens]
    split_ifs
    · exact hbroken st
    · exact ⟨.pure _, fun st' h => by cases h; exact ⟨rfl, id⟩⟩
  | cons t ts ih =>
    rw [List.forall_mem_cons] at hmark hts
    rw [readTokens]
    split_ifs
    · exact hbroken st
    · obtain ⟨hq, hkeep⟩ := handleOption_quiet w name hmark.1 hts.1.1 hts.1.2
        t.word optopt st
      have hrest := fun st => ih hmark.2 hts.2 (t.found.optopt.getD optopt) st
      refine ⟨hq.bind fun st₁ _ => (hrest st₁).1, fun st' h => ?_⟩
      obtain ⟨st₁, h₁, h₂⟩ := of_bind_ok h
      have hk := hkeep st₁ h₁
      have hk' := (hrest st₁).2 st' h₂
      exact ⟨hk'.1.trans hk.1, fun hd => hk'.2 (hk.2 hd)⟩

/-- Without `--argv` and without a call for help nothing is ever printed, whatever
the files, the table and the command line are. -/
theorem main_prints_nothing (w : World) (rv : ℤ) (fuel : ℕ) (path : CStr) (args : List CStr)
    (hts : ∀ t ∈ options.tokens false args, ¬ Helps t ∧ ¬ isOption 'A' t)
    (hfuel : (options.tokens false args).length < fuel) :
    (visible (main w rv fuel path args)).log = [] := by
  obtain ⟨words, hmain, -⟩ := main_reads w rv path hfuel
  obtain ⟨hq, hkeep⟩ := readTokens_quiet w (sname path) _
    (tokens_marked options_unambiguous false args) hts 0 ⟨false, false, false, false, 0, rv⟩
  rw [hmain]
  refine Quiet.visible (hq.bind fun st hret => ?_)
  obtain ⟨hargv, hdebug⟩ := hkeep st hret
  exact runCommand_quiet fuel words hargv (hdebug rfl)

theorem main_prints_nothing_sample : (visible (main (sampleWorld none (say "9780312128470\n\n")) 0 4
    (say "isbn-hyphenate") [say "-vx", say "--debug"])).log = [] :=
  main_prints_nothing _ 0 4 _ _ (by decide) (by decide)

theorem isbnStream_visible {st : Settings} (hclosed : st.dprint = false)
    {isbn : Option RangeTable} {stream : CStr} {fuel : ℕ}
    (hpage : ∀ l ∈ linesOf stream, l.length < w.sz.pageSize)
    (hlines : (linesOf stream).length ≤ fuel) :
    visible (isbnStream w st isbn fuel ⟨bytesOf stream, false, false⟩) =
      ⟨[], if ¬ st.debug ∧ Blank stream then .ok 0 else .error .badRead⟩ := by
  have hlog := (isbnStream_quiet w hclosed isbn fuel ⟨bytesOf stream, false, false⟩).visible
  have hret : (streamLoop w.sz w.stale (tracedLine false isbn w.behind) fuel 0
      (linebufInit ⟨bytesOf stream, false, false⟩)).ret =
        if Blank stream then .ok 0 else .error .badRead :=
    streamLoop_stops w.sz (fun n s => tracedLine_closed isbn w.behind n s) stream _ 0
      (fitsSegment_of_page hpage) rfl rfl hlines
  refine congrArg₂ Logged.mk hlog ?_
  rw [isbnStream, hclosed]
  cases st.debug with
  | true => rfl
  | false =>
    simp only [Bool.false_eq_true, false_and, if_false, not_false_eq_true, true_and, hret]
    split_ifs <;> rfl

theorem runCommand_visible {fuel : ℕ} {filev : List CStr} {st : Settings}
    {tab : IsbnInfo × Packed} (herr : st.errCount = 0)
    (hshown : (st.verbose || st.debug) = true → Traced.Showable filev)
    (htable : (Traced.parseIsbnRangeTable (st.verbose || st.debug) w.document).ret = .ok tab) :
    visible (runCommand w name fuel filev st) =
      if ¬ Within w.slack tab.2 then quit .badWrite
      else if st.rv ≠ 0 then quit (.exit (exitStatus st.rv))
      else visible (processIsbns w st (st.verbose || st.debug)
        (some (tab.1.table tab.2.view)) fuel filev) >>= fun rv => quit (.exit (exitStatus rv)) := by
  rw [runCommand, visible_bind, showOperands_visible hshown]
  simp only [herr, ne_eq, not_true_eq_false, if_false]
  have hskip : ∀ f : Unit → Logged UInt8 Stop Unit, pure () >>= f = f () := fun _ => rfl
  have hgo : ∀ f : IsbnInfo × Packed → Logged UInt8 Stop Unit, silent (.ok tab) >>= f = f tab :=
    fun _ => rfl
  rw [hskip, visible_bind, visible_onEprint, htable, hgo]
  split_ifs
  · rw [visible_bind]
    rfl
  · rfl
  · rfl

theorem settled_debug (rv : ℤ) (ts : List Token) :
    (settled ⟨false, false, false, false, 0, rv⟩ ts).debug = ts.any (isOption 'd') := by
  simp [settled]

theorem settled_unset {rv : ℤ} {ts : List Token} (hts : ts = []) :
    (settled ⟨false, false, false, false, 0, rv⟩ ts).rv = rv := if_pos hts

theorem settled_rv (rv : ℤ) (ts : List Token) :
    (settled ⟨false, false, false, false, 0, rv⟩ ts).rv ≠ 0 ↔ ts = [] ∧ rv ≠ 0 := by
  by_cases hts : ts = [] <;> simp [settled, hts]

theorem sample_table_loads (verbose : Bool) :
    ∃ tab, (Traced.parseIsbnRangeTable verbose none).ret = .ok tab ∧
      Within (fun _ => sizeofFst) tab.2 := by
  have hok : ∀ verbose, ((Traced.parseIsbnRangeTable verbose none).ret >>= fun tab =>
      .ok (decide (Within (fun _ => sizeofFst) tab.2))) = .ok true := by
    decide +kernel
  obtain ⟨tab, htable, hwithin⟩ := run_bind_ok (hok verbose)
  exact ⟨tab, htable, of_decide_eq_true (Except.ok.inj hwithin)⟩

def missing (w : World) (fname : CStr) : Bool := fname ≠ [dash] ∧ ¬ w.access fname

def missingMessage (fname : CStr) : CStr :=
  say "'" ++ (fname.flatMap fun c => Traced.graphic (chrInt c)) ++ say "'" ++
    say " does not exist.\n"

theorem fnameProbe_eq {fname : CStr} (hascii : missing w fname → Traced.AsciiStr fname) :
    fnameProbe w fname = if missing w fname then
      ⟨(missingMessage fname).map fun c => .eprint c.1, .ok (-1)⟩ else pure 0 := by
  by_cases hd : fname = [dash]
  · simp [fnameProbe, missing, hd]
  · by_cases hacc : w.access fname
    · simp [fnameProbe, missing, hacc]
    · have hmiss : missing w fname = true := by simp [missing, hd, hacc]
      have hall := hascii hmiss
      have htake := Traced.takeWhile_ascii hall
      rw [if_pos hmiss, fnameProbe, if_neg hd, if_neg hacc, Traced.fshowFname, Traced.fshowStr_eq,
        if_pos hall, htake]
      simp [eputs, onEprint, emit, missingMessage, pure_eq]

theorem filevProbe_eq (filev : List CStr)
    (hascii : ∀ fname ∈ filev, missing w fname → Traced.AsciiStr fname) (anyRv : ℤ) :
    filevProbe w anyRv filev =
      ⟨((filev.filter (missing w)).flatMap missingMessage).map fun c => .eprint c.1,
        .ok (if filev.any (missing w) then -1 else anyRv)⟩ := by
  induction filev generalizing anyRv with
  | nil => rfl
  | cons fname filev ih =>
    rw [List.forall_mem_cons] at hascii
    rw [filevProbe, fnameProbe_eq hascii.1]
    cases hm : missing w fname with
    | true => simp [ih hascii.2, hm]
    | false => simp [ih hascii.2, hm, pure_eq]

/-- How a run over the files ends. The return value of `isbn_stream` is 0 when
`fclose` fails. -/
def filesEnd (w : World) (debug : Bool) (text : CStr → CStr) : List CStr → Stop
  | [] => .exit 0
  | fname :: filev =>
    match w.fopen fname with
    | .error err => .exit (exitStatus err)
    | .ok _ =>
      if ¬ debug ∧ Blank (text fname) then
        if w.fclose fname then filesEnd w debug text filev else .exit 0
      else .badRead

def Opens (w : World) (fuel : ℕ) (text : CStr) (f : File) : Prop :=
  f = ⟨bytesOf text, false, false⟩ ∧ (∀ l ∈ linesOf text, l.length < w.sz.pageSize) ∧
    (linesOf text).length ≤ fuel

theorem filevIsbn_visible {st : Settings} (hclosed : st.dprint = false) (isbn : Option RangeTable)
    (fuel : ℕ) (text : CStr → CStr) (filev : List CStr)
    (hfiles : ∀ fname ∈ filev, ∀ f, w.fopen fname = .ok f → Opens w fuel (text fname) f) :
    (visible (filevIsbn w st isbn fuel filev) >>= fun rv =>
      (quit (.exit (exitStatus rv)) : Logged UInt8 Stop Unit)) =
        quit (filesEnd w st.debug text filev) := by
  induction filev with
  | nil => rfl
  | cons fname filev ih =>
    rw [List.forall_mem_cons] at hfiles
    rw [filevIsbn, filesEnd]
    cases hopen : w.fopen fname with
    | error err =>
      simp only [visible_bind, visible_eputs]
      rfl
    | ok f =>
      obtain ⟨rfl, hpage, hlines⟩ := hfiles.1 f hopen
      simp only [visible_bind, isbnStream_visible hclosed hpage hlines]
      by_cases hblank : ¬ st.debug ∧ Blank (text fname)
      · simp only [if_pos hblank, Logged.bind_ok, ne_eq, not_true_eq_false, if_false]
        by_cases hclose : w.fclose fname
        · simp only [if_pos hclose]
          exact ih hfiles.2
        · simp only [if_neg hclose, visible_bind, visible_eputs]
          rfl
      · simp only [if_neg hblank]
        rfl

end Command

end IsbnHyphenate.Command
