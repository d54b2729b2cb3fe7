import IsbnHyphenate.IsbnBlocks

/-!
# Which strings the parser leaves behind

The parser reads and frees live strings only, and each string of the record and
of its table is a block of its own. A string is lost where an element comes twice:
the second `Prefix` of a group, or the second `Range` or `Length` of a rule, takes
the place of the first one.
-/

namespace IsbnHyphenate.Owned
open Ledger

def keyBlocks (key : Option Str) : List ℕ := (key.map Prod.fst).toList

def IsbnInfo.blocks (isbn : IsbnInfo) : List ℕ :=
  keyBlocks isbn.curPrefix ++ keyBlocks isbn.curAgency ++
    isbn.rows.flatMap fun row => [row.1, row.2]

def dropped (keys : List (Option CStr)) : ℕ := keys.dropLast.countP Option.isSome

def keysNamed (name : String) (children : List XmlNode) : List (Option CStr) :=
  (childrenNamed name children).map XmlNode.text

def lostInRule (cur : XmlNode) : ℕ :=
  dropped (keysNamed "Range" cur.children) + dropped (keysNamed "Length" cur.children)

def lostInRules (cur : XmlNode) : ℕ := ((childrenNamed "Rule" cur.children).map lostInRule).sum

def lostInGroup (cur : XmlNode) : ℕ :=
  ((childrenNamed "Prefix" cur.children).length - 1) +
    ((childrenNamed "Rules" cur.children).map lostInRules).sum

def lostStrings (root : Option XmlNode) : ℕ := ((groupNodes root).map lostInGroup).sum

theorem childrenNamed_pos {name : String} {cur : XmlNode} (h : cur.name = name)
    (next : List XmlNode) :
    childrenNamed name (cur :: next) = cur :: childrenNamed name next := by
  rw [childrenNamed, List.filter_cons_of_pos (by simpa using h), childrenNamed]

theorem childrenNamed_neg {name : String} {cur : XmlNode} (h : cur.name ≠ name)
    (next : List XmlNode) : childrenNamed name (cur :: next) = childrenNamed name next := by
  rw [childrenNamed, List.filter_cons_of_neg (by simpa using h), childrenNamed]

theorem keysNamed_pos {name : String} {cur : XmlNode} (h : cur.name = name)
    (next : List XmlNode) : keysNamed name (cur :: next) = cur.text :: keysNamed name next := by
  rw [keysNamed, childrenNamed_pos h, List.map_cons, keysNamed]

theorem keysNamed_neg {name : String} {cur : XmlNode} (h : cur.name ≠ name)
    (next : List XmlNode) : keysNamed name (cur :: next) = keysNamed name next := by
  rw [keysNamed, childrenNamed_neg h, keysNamed]

theorem dropped_cons (key key' : Option CStr) (keys : List (Option CStr)) :
    dropped (key :: key' :: keys) = (if key.isSome then 1 else 0) + dropped (key' :: keys) := by
  rw [dropped, List.dropLast_cons_cons, List.countP_cons, Nat.add_comm, dropped]

theorem dropped_none (keys : List (Option CStr)) : dropped (none :: keys) = dropped keys := by
  cases keys with
  | nil => rfl
  | cons key keys => rw [dropped_cons, Option.isSome_none, if_neg Bool.false_ne_true, Nat.zero_add]

theorem card_keyBlocks (key : Option Str) :
    (keyBlocks key : Multiset ℕ).card = if (key.map Prod.snd).isSome then 1 else 0 := by
  cases key <;> rfl

theorem key_accounts {α β : Type} {own : Multiset ℕ} {cur : XmlNode}
    {f : Option Str → Owning α} {y : Run β} {Q : α → β → Multiset ℕ → Prop}
    (h : ∀ key : Option Str, key.map Prod.snd = cur.text →
      Accounts (keyBlocks key + own) (f key) y Q) :
    Accounts own (xmlNodeListGetString cur >>= f) y Q := by
  rw [xmlNodeListGetString]
  cases hkey : cur.text with
  | none =>
    have hnone := h none hkey.symm
    rw [keyBlocks, Option.map_none, Option.toList_none, Multiset.coe_nil, Multiset.zero_add]
      at hnone
    exact hnone
  | some text => exact .malloc fun b => h (some (b, text)) hkey.symm

theorem freeKey_accounts {α β : Type} {own : Multiset ℕ} {key : Option Str}
    {f : Unit → Owning α} {y : Run β} {Q : α → β → Multiset ℕ → Prop}
    (h : Accounts own (f ()) y Q) :
    Accounts (keyBlocks key + own) (freeKey key >>= f) y Q := by
  cases key with
  | none =>
    rw [keyBlocks, Option.map_none, Option.toList_none, Multiset.coe_nil, Multiset.zero_add]
    exact h
  | some key => exact .free h

theorem ruleKeys_accounts (rangeKey lengthKey : Option Str) (children : List XmlNode) :
    Accounts (keyBlocks rangeKey + keyBlocks lengthKey) (ruleKeys rangeKey lengthKey children)
      (.ok (IsbnHyphenate.ruleKeys (rangeKey.map Prod.snd) (lengthKey.map Prod.snd) children) :
        Run (Option CStr × Option CStr))
      fun p q own => p.1.map Prod.snd = q.1 ∧ p.2.map Prod.snd = q.2 ∧
        ∃ lost : Multiset ℕ, own = keyBlocks p.1 + (keyBlocks p.2 + lost) ∧
          lost.card = dropped (rangeKey.map Prod.snd :: keysNamed "Range" children) +
            dropped (lengthKey.map Prod.snd :: keysNamed "Length" children) := by
  induction children generalizing rangeKey lengthKey with
  | nil => exact .pure ⟨rfl, rfl, 0, by rw [Multiset.add_zero], rfl⟩
  | cons cur next ih =>
    rw [ruleKeys, IsbnHyphenate.ruleKeys]
    by_cases hrange : cur.name = "Range"
    · have hlength : cur.name ≠ "Length" := by
        rw [hrange]
        decide
      rw [if_pos hrange, if_pos hrange]
      refine key_accounts fun key hkey => ?_
      rw [← hkey, Multiset.add_comm (keyBlocks rangeKey : Multiset ℕ), ← Multiset.add_assoc]
      refine ((ih key lengthKey).frame (keyBlocks rangeKey)).mono fun p q own hpost => ?_
      obtain ⟨o, rfl, hfst, hsnd, lost, rfl, hcard⟩ := hpost
      refine ⟨hfst, hsnd, lost + keyBlocks rangeKey, ?_, ?_⟩
      · simp only [Multiset.add_assoc]
      · rw [Multiset.card_add, hcard, card_keyBlocks, keysNamed_pos hrange, dropped_cons,
          keysNamed_neg hlength, hkey]
        omega
    · by_cases hlength : cur.name = "Length"
      · rw [if_neg hrange, if_neg hrange, if_pos hlength, if_pos hlength]
        refine key_accounts fun key hkey => ?_
        rw [← hkey, ← Multiset.add_assoc, Multiset.add_comm (keyBlocks key : Multiset ℕ)]
        refine ((ih rangeKey key).frame (keyBlocks lengthKey)).mono fun p q own hpost => ?_
        obtain ⟨o, rfl, hfst, hsnd, lost, rfl, hcard⟩ := hpost
        refine ⟨hfst, hsnd, lost + keyBlocks lengthKey, ?_, ?_⟩
        · simp only [Multiset.add_assoc]
        · rw [Multiset.card_add, hcard, card_keyBlocks, keysNamed_pos hlength, dropped_cons,
            keysNamed_neg hrange, hkey]
          omega
      · rw [if_neg hrange, if_neg hrange, if_neg hlength, if_neg hlength]
        rw [keysNamed_neg hrange, keysNamed_neg hlength]
        exact ih rangeKey lengthKey

theorem addRuleStr_keeps {isbn table : IsbnHyphenate.IsbnInfo} {rv : ℕ}
    {rangeStr rangeLen : Option CStr} (h : addRuleStr isbn rangeStr rangeLen = .ok (rv, table)) :
    table.curPrefix = isbn.curPrefix ∧ table.curAgency = isbn.curAgency ∧
      table.prefixNr = isbn.prefixNr := by
  obtain ⟨rule, -, hadd⟩ := run_bind_ok h
  cases rule with
  | none =>
    cases hadd
    exact ⟨rfl, rfl, rfl⟩
  | some rule =>
    obtain ⟨room, -, hwrite⟩ := run_bind_ok hadd
    obtain ⟨ranges, -, hret⟩ := run_bind_ok hwrite
    cases hret
    exact ⟨rfl, rfl, rfl⟩

theorem plain_table {isbn : IsbnInfo} {table : IsbnHyphenate.IsbnInfo}
    (hpfx : table.curPrefix = isbn.plain.curPrefix)
    (hagency : table.curAgency = isbn.plain.curAgency) :
    ({ isbn with table := table } : IsbnInfo).plain = table := by
  cases table
  cases hpfx
  cases hagency
  rfl

structure SameStrings (isbn p : IsbnInfo) : Prop where
  curPrefix : p.curPrefix = isbn.curPrefix
  curAgency : p.curAgency = isbn.curAgency
  rows : p.rows = isbn.rows
  prefixNr : p.table.prefixNr = isbn.table.prefixNr

theorem SameStrings.blocks {isbn p : IsbnInfo} (h : SameStrings isbn p) :
    p.blocks = isbn.blocks := by
  rw [IsbnInfo.blocks, h.curPrefix, h.curAgency, h.rows, IsbnInfo.blocks]

theorem parseRule_accounts (isbn : IsbnInfo) (cur : XmlNode) :
    Accounts 0 (parseRule isbn cur) (IsbnHyphenate.parseRule isbn.plain cur)
      fun p q own => SameStrings isbn p ∧ p.plain = q ∧ own.card = lostInRule cur := by
  have hsplit : IsbnHyphenate.parseRule isbn.plain cur =
      (.ok (IsbnHyphenate.ruleKeys none none cur.children) : Run _) >>= fun keys =>
        addRuleStr isbn.plain keys.1 keys.2 >>= fun ret =>
          if ret.1 ≠ 0 then .error (.exit 2) else .ok ret.2 := rfl
  rw [hsplit]
  refine (ruleKeys_accounts none none cur.children).bind fun p q own hpost => ?_
  obtain ⟨hfst, hsnd, lost, rfl, hcard⟩ := hpost
  rw [hfst, hsnd]
  refine .plain fun ret hret => freeKey_accounts (freeKey_accounts ?_)
  split_ifs
  · exact .quit _
  · obtain ⟨hpfx, hagency, hnr⟩ := addRuleStr_keeps hret
    refine .pure ⟨⟨rfl, rfl, rfl, hnr⟩, plain_table hpfx hagency, ?_⟩
    rw [hcard, Option.map_none, dropped_none, dropped_none, lostInRule]

theorem parseRules_accounts (isbn : IsbnInfo) (children : List XmlNode) :
    Accounts 0 (parseRules isbn children) (IsbnHyphenate.parseRules isbn.plain children)
      fun p q own => SameStrings isbn p ∧ p.plain = q ∧
        own.card = ((childrenNamed "Rule" children).map lostInRule).sum := by
  induction children generalizing isbn with
  | nil => exact .pure ⟨⟨rfl, rfl, rfl, rfl⟩, rfl, rfl⟩
  | cons cur next ih =>
    rw [parseRules, IsbnHyphenate.parseRules]
    by_cases hrule : cur.name = "Rule"
    · rw [if_pos hrule, if_pos hrule, childrenNamed_pos hrule, List.map_cons, List.sum_cons]
      refine (parseRule_accounts isbn cur).bind fun p q own hpost => ?_
      obtain ⟨hsame, rfl, hcard⟩ := hpost
      rw [← Multiset.zero_add own]
      refine ((ih p).frame own).mono fun p' q own' hrest => ?_
      obtain ⟨o, rfl, hsame', hplain, hmore⟩ := hrest
      refine ⟨⟨?_, ?_, ?_, ?_⟩, hplain, ?_⟩
      · exact hsame'.curPrefix.trans hsame.curPrefix
      · exact hsame'.curAgency.trans hsame.curAgency
      · exact hsame'.rows.trans hsame.rows
      · exact hsame'.prefixNr.trans hsame.prefixNr
      · rw [Multiset.card_add, hmore, hcard, Nat.add_comm]
    · rw [if_neg hrule, if_neg hrule, childrenNamed_neg hrule]
      exact ih isbn

theorem coe_blocks (isbn : IsbnInfo) : (isbn.blocks : Multiset ℕ) =
    keyBlocks isbn.curPrefix + (keyBlocks isbn.curAgency +
      (isbn.rows.flatMap fun row => [row.1, row.2] : List ℕ)) := by
  rw [IsbnInfo.blocks, List.append_assoc, ← Multiset.coe_add, ← Multiset.coe_add]

theorem keyBlocks_some (key : Str) (own : Multiset ℕ) :
    keyBlocks (some key) + own = key.1 ::ₘ own := Multiset.singleton_add _ _

theorem keyBlocks_none (own : Multiset ℕ) : keyBlocks none + own = own := Multiset.zero_add own

section Steps
variable {α β : Type} {own : Multiset ℕ} {y : Run β} {Q : α → β → Multiset ℕ → Prop}

theorem newStr_accounts {text : CStr} {f : Str → Owning α}
    (h : ∀ b, Accounts (b ::ₘ own) (f (b, text)) y Q) : Accounts own (newStr text >>= f) y Q :=
  .malloc h

theorem strdup_accounts {s : Str} {f : Str → Owning α} (hmem : s.1 ∈ own)
    (h : ∀ b, Accounts (b ::ₘ own) (f (b, s.2)) y Q) : Accounts own (strdup s >>= f) y Q := by
  rw [strdup, bind_assoc]
  exact .touch hmem (newStr_accounts h)

theorem text_accounts {cur : XmlNode} {f : Option Str → Owning α} {g : CStr → Run β}
    (hnone : f none = quit .badRead)
    (h : ∀ key : Str, Accounts (key.1 ::ₘ own) (f (some key)) (g key.2) Q) :
    Accounts own (xmlNodeListGetString cur >>= f) (textOf cur >>= g) Q := by
  rw [xmlNodeListGetString, textOf]
  cases cur.text with
  | none =>
    rw [pure_bind, hnone]
    exact .quit _
  | some text =>
    change Accounts own (malloc >>= fun b => f (some (b, text))) (g text) Q
    exact .malloc fun b => h (b, text)

theorem orError_accounts {s : Option Str} {text : CStr} {f : Str → Owning α}
    (h : ∀ b, Accounts (b ::ₘ own) (f (b, (s.map Prod.snd).getD text)) y Q) :
    Accounts (keyBlocks s + own) (orError s text >>= f) y Q := by
  cases s with
  | none =>
    rw [keyBlocks_none]
    exact newStr_accounts h
  | some s =>
    rw [keyBlocks_some]
    exact h s.1

theorem nextAgency_accounts {curAgency : Option Str} {key : Str} {f : Str → Owning α}
    (hmem : key.1 ∈ own) (h : ∀ b, Accounts (b ::ₘ own) (f (b, key.2)) y Q) :
    Accounts (keyBlocks curAgency + own) (nextAgency curAgency key >>= f) y Q := by
  cases curAgency with
  | none =>
    rw [keyBlocks_none]
    exact strdup_accounts hmem h
  | some agency =>
    rw [keyBlocks_some, nextAgency, bind_assoc]
    refine .touch (Multiset.mem_cons_self _ _) ?_
    split_ifs with hne
    · rw [bind_assoc]
      exact .free (strdup_accounts hmem h)
    · obtain ⟨b, text⟩ := agency
      have hsame : text = key.2 := not_not.mp hne
      subst hsame
      exact h b

end Steps

def IsbnInfo.Rows (isbn : IsbnInfo) : Prop := isbn.rows.length = isbn.table.prefixNr

/-- `own` are the strings of the record and as many lost ones. -/
def Owns (own : Multiset ℕ) (isbn : IsbnInfo) (lost : ℕ) : Prop :=
  isbn.Rows ∧ ∃ rest : Multiset ℕ, own = isbn.blocks + rest ∧ rest.card = lost

theorem Owns.frame {own : Multiset ℕ} {isbn : IsbnInfo} {lost : ℕ} (h : Owns own isbn lost)
    (other : Multiset ℕ) : Owns (own + other) isbn (lost + other.card) := by
  obtain ⟨hrows, rest, rfl, rfl⟩ := h
  exact ⟨hrows, rest + other, Multiset.add_assoc _ _ _, Multiset.card_add _ _⟩

theorem Owns.beside {own rest : Multiset ℕ} {isbn : IsbnInfo} {lost before : ℕ}
    (h : Owns own isbn lost) (hcard : rest.card = before) :
    Owns (own + rest) isbn (before + lost) := by
  rw [← hcard, Nat.add_comm]
  exact h.frame rest

def lostAmong (curPrefix : Option Str) (children : List XmlNode) : ℕ :=
  (keyBlocks curPrefix).length + (childrenNamed "Prefix" children).length - 1 +
    ((childrenNamed "Rules" children).map lostInRules).sum

theorem groupChildren_accounts (isbn : IsbnInfo) (hrows : isbn.Rows) (children : List XmlNode) :
    Accounts isbn.blocks (groupChildren isbn children)
      (IsbnHyphenate.groupChildren isbn.plain children)
      fun p q own => p.plain = q ∧ Owns own p (lostAmong isbn.curPrefix children) := by
  induction children generalizing isbn with
  | nil =>
    refine .pure ⟨rfl, hrows, 0, (Multiset.add_zero _).symm, ?_⟩
    cases isbn.curPrefix <;> rfl
  | cons cur next ih =>
    rw [groupChildren, IsbnHyphenate.groupChildren]
    by_cases hpfx : cur.name = "Prefix"
    · have hrules : cur.name ≠ "Rules" := by
        rw [hpfx]
        decide
      rw [if_pos hpfx, if_pos hpfx]
      refine text_accounts rfl fun key => ?_
      refine strdup_accounts (Multiset.mem_cons_self _ _) fun b => ?_
      rw [Multiset.cons_swap]
      refine .free ?_
      have hown : b ::ₘ (isbn.blocks : Multiset ℕ) =
          ({ isbn with curPrefix := some (b, key.2) } : IsbnInfo).blocks +
            keyBlocks isbn.curPrefix := by
        rw [coe_blocks, coe_blocks, keyBlocks_some, Multiset.cons_add,
          Multiset.add_comm (keyBlocks isbn.curPrefix : Multiset ℕ)]
      have hlost : lostAmong isbn.curPrefix (cur :: next) =
          lostAmong (some (b, key.2)) next + (keyBlocks isbn.curPrefix : Multiset ℕ).card := by
        rw [lostAmong, lostAmong, childrenNamed_pos hpfx, childrenNamed_neg hrules,
          Multiset.coe_card, List.length_cons]
        have hone : (keyBlocks (some (b, key.2))).length = 1 := rfl
        omega
      rw [hown, hlost]
      refine ((ih { isbn with curPrefix := some (b, key.2) } hrows).frame
        (keyBlocks isbn.curPrefix)).mono fun p q own hpost => ?_
      obtain ⟨o, rfl, hplain, howns⟩ := hpost
      exact ⟨hplain, howns.frame _⟩
    · by_cases hagency : cur.name = "Agency"
      · have hrules : cur.name ≠ "Rules" := by
          rw [hagency]
          decide
        rw [if_neg hpfx, if_neg hpfx, if_pos hagency, if_pos hagency]
        refine text_accounts rfl fun key => ?_
        have hown : key.1 ::ₘ (isbn.blocks : Multiset ℕ) =
            keyBlocks isbn.curAgency + (key.1 ::ₘ (keyBlocks isbn.curPrefix +
              (isbn.rows.flatMap fun row => [row.1, row.2] : List ℕ))) := by
          rw [coe_blocks, Multiset.add_cons, ← Multiset.add_assoc, ← Multiset.add_assoc,
            Multiset.add_comm (keyBlocks isbn.curAgency : Multiset ℕ)]
        rw [hown]
        refine nextAgency_accounts (Multiset.mem_cons_self _ _) fun b => ?_
        have hnext : b ::ₘ (keyBlocks isbn.curPrefix +
              (isbn.rows.flatMap fun row => [row.1, row.2] : List ℕ) : Multiset ℕ) =
            ({ isbn with curAgency := some (b, key.2) } : IsbnInfo).blocks := by
          rw [coe_blocks, keyBlocks_some, Multiset.add_cons]
        have hkept : (if isbn.plain.curAgency ≠ some key.2 then none
            else isbn.plain.curAgency).getD key.2 = key.2 := by
          split_ifs with hne
          · rfl
          · rw [not_not.mp hne, Option.getD_some]
        have hlost : lostAmong isbn.curPrefix (cur :: next) = lostAmong isbn.curPrefix next := by
          rw [lostAmong, childrenNamed_neg hpfx, childrenNamed_neg hrules, lostAmong]
        rw [Multiset.cons_swap, hnext, hlost]
        simp only [hkept]
        exact .free (ih { isbn with curAgency := some (b, key.2) } hrows)
      · rw [if_neg hpfx, if_neg hpfx, if_neg hagency, if_neg hagency]
        by_cases hrules : cur.name = "Rules"
        · rw [if_pos hrules, if_pos hrules, ← Multiset.zero_add (isbn.blocks : Multiset ℕ)]
          refine ((parseRules_accounts isbn cur.children).frame isbn.blocks).bind
            fun p q own hpost => ?_
          obtain ⟨o, rfl, hsame, rfl, hcard⟩ := hpost
          have hlost : lostAmong isbn.curPrefix (cur :: next) =
              lostAmong p.curPrefix next + o.card := by
            rw [hsame.curPrefix, hcard, lostAmong, childrenNamed_neg hpfx,
              childrenNamed_pos hrules, List.map_cons, List.sum_cons, lostInRules, lostAmong]
            omega
          have hrows' : p.Rows := by
            rw [IsbnInfo.Rows, hsame.rows, hsame.prefixNr]
            exact hrows
          rw [← hsame.blocks, Multiset.add_comm o, hlost]
          refine ((ih p hrows').frame o).mono fun p' q own hrest => ?_
          obtain ⟨o', rfl, hplain, howns⟩ := hrest
          exact ⟨hplain, howns.frame o⟩
        · have hlost : lostAmong isbn.curPrefix (cur :: next) = lostAmong isbn.curPrefix next := by
            rw [lostAmong, childrenNamed_neg hpfx, childrenNamed_neg hrules, lostAmong]
          rw [if_neg hrules, if_neg hrules, hlost]
          exact ih isbn hrows

def IsbnInfo.named (isbn : IsbnInfo) (pfx agency : Str) : IsbnInfo :=
  { isbn with curPrefix := some pfx, curAgency := some agency }

theorem named_blocks (isbn : IsbnInfo) (pfx agency : Str) :
    ((isbn.named pfx agency).blocks : Multiset ℕ) =
      agency.1 ::ₘ pfx.1 ::ₘ (isbn.rows.flatMap fun row => [row.1, row.2] : List ℕ) := by
  rw [coe_blocks, IsbnInfo.named, keyBlocks_some, keyBlocks_some, Multiset.cons_swap]

theorem addPrefix_accounts {isbn : IsbnInfo} (hrows : isbn.Rows) (pfx agency : Str) :
    Accounts (isbn.named pfx agency).blocks (addPrefix (isbn.named pfx agency) pfx agency)
      (IsbnHyphenate.addPrefix (isbn.named pfx agency).plain pfx.2 agency.2)
      fun p q own => p.2.plain = q.2 ∧ p.2.Rows ∧ own = p.2.blocks := by
  have hpfx : pfx.1 ∈ ((isbn.named pfx agency).blocks : Multiset ℕ) := by
    rw [named_blocks]
    exact Multiset.mem_cons_of_mem (Multiset.mem_cons_self _ _)
  have hmem : ∀ b, agency.1 ∈ b ::ₘ ((isbn.named pfx agency).blocks : Multiset ℕ) := by
    intro b
    rw [named_blocks]
    exact Multiset.mem_cons_of_mem (Multiset.mem_cons_self _ _)
  refine .plain fun room _ => .touch hpfx (.plain fun numericPrefix _ => ?_)
  cases numericPrefix with
  | none => exact .pure ⟨rfl, hrows, rfl⟩
  | some numericPrefix =>
    refine newStr_accounts fun b => strdup_accounts (hmem b) fun b' => ?_
    refine .plain fun pfxtbl _ => .plain fun ret _ => .pure ⟨rfl, ?_, ?_⟩
    · rw [IsbnInfo.Rows, List.length_append, List.length_singleton]
      exact congrArg (· + 1) hrows
    · have hpair : (([(b, b')].flatMap fun row => [row.1, row.2] : List ℕ) : Multiset ℕ) =
          b ::ₘ b' ::ₘ 0 := rfl
      rw [coe_blocks, coe_blocks, List.flatMap_append, ← Multiset.coe_add, hpair,
        Multiset.cons_swap]
      simp only [Multiset.add_cons, Multiset.add_zero]

theorem parseGroup_accounts {isbn : IsbnInfo} (hrows : isbn.Rows) (cur : XmlNode) :
    Accounts isbn.blocks (parseGroup isbn cur) (IsbnHyphenate.parseGroup isbn.plain cur)
      fun p q own => p.1 = q.1 ∧ p.2.plain = q.2 ∧ Owns own p.2 (lostInGroup cur) := by
  rw [coe_blocks]
  refine freeKey_accounts ?_
  have hnone : keyBlocks isbn.curAgency +
        (isbn.rows.flatMap fun row => [row.1, row.2] : List ℕ) =
      (({ isbn with curPrefix := none } : IsbnInfo).blocks : Multiset ℕ) := by
    rw [coe_blocks, keyBlocks_none]
  have hlost : lostAmong none cur.children = lostInGroup cur := by
    rw [lostAmong, lostInGroup, keyBlocks, Option.map_none, Option.toList_none, List.length_nil,
      Nat.zero_add]
  rw [hnone, ← hlost]
  refine (groupChildren_accounts { isbn with curPrefix := none } hrows cur.children).bind
    fun p q own hpost => ?_
  obtain ⟨rfl, hrows', rest, rfl, hcard⟩ := hpost
  rw [coe_blocks, Multiset.add_assoc]
  refine orError_accounts fun b => ?_
  rw [Multiset.add_assoc, ← Multiset.add_cons]
  refine orError_accounts fun b' => ?_
  have hown : b' ::ₘ b ::ₘ ((p.rows.flatMap fun row => [row.1, row.2] : List ℕ) + rest) =
      (p.named (b, (p.curPrefix.map Prod.snd).getD PREFIX_ERROR)
        (b', (p.curAgency.map Prod.snd).getD AGENCY_ERROR)).blocks + rest := by
    rw [named_blocks, Multiset.cons_add, Multiset.cons_add]
  have herr : (if p.curPrefix = none ∨ p.curAgency = none then 1 else 0) =
      if p.plain.curPrefix = none ∨ p.plain.curAgency = none then 1 else 0 := by
    simp only [IsbnInfo.plain, Option.map_eq_none_iff]
  rw [hown, herr]
  refine ((addPrefix_accounts hrows' (b, _) (b', _)).frame rest).bind fun ret q own hret => ?_
  obtain ⟨o, rfl, hplain, hrows'', rfl⟩ := hret
  exact .pure ⟨rfl, hplain, hrows'', rest, rfl, hcard⟩

theorem groups_accounts {isbn : IsbnInfo} (hrows : isbn.Rows) (rgroupErr : ℕ)
    (children : List XmlNode) :
    Accounts isbn.blocks (parseRegistrationGroups isbn rgroupErr children)
      (IsbnHyphenate.parseRegistrationGroups isbn.plain rgroupErr children)
      fun p q own => p.1 = q.1 ∧ p.2.plain = q.2 ∧
        Owns own p.2 ((childrenNamed "Group" children).map lostInGroup).sum := by
  induction children generalizing isbn rgroupErr with
  | nil => exact .pure ⟨rfl, rfl, hrows, 0, (Multiset.add_zero _).symm, rfl⟩
  | cons cur next ih =>
    rw [parseRegistrationGroups, IsbnHyphenate.parseRegistrationGroups]
    by_cases hgroup : cur.name = "Group"
    · rw [if_pos hgroup, if_pos hgroup, childrenNamed_pos hgroup, List.map_cons, List.sum_cons]
      refine (parseGroup_accounts hrows cur).bind fun p q own hpost => ?_
      obtain ⟨rc, isbn'⟩ := p
      obtain ⟨rc', table⟩ := q
      obtain ⟨rfl, rfl, hrows', rest, rfl, hcard⟩ := hpost
      refine ((ih hrows' _).frame rest).mono fun p q own hrest => ?_
      obtain ⟨o, rfl, hrc, hplain, howns⟩ := hrest
      exact ⟨hrc, hplain, howns.beside hcard⟩
    · rw [if_neg hgroup, if_neg hgroup, childrenNamed_neg hgroup]
      exact ih hrows rgroupErr

theorem message_accounts {isbn : IsbnInfo} (hrows : isbn.Rows) (docErr : ℕ)
    (children : List XmlNode) :
    Accounts isbn.blocks (parseMessage isbn docErr children)
      (IsbnHyphenate.parseMessage isbn.plain docErr children)
      fun p q own => p.1 = q.1 ∧ p.2.plain = q.2 ∧ Owns own p.2
        (((childrenNamed "RegistrationGroups" children).flatMap fun cur =>
          childrenNamed "Group" cur.children).map lostInGroup).sum := by
  induction children generalizing isbn docErr with
  | nil => exact .pure ⟨rfl, rfl, hrows, 0, (Multiset.add_zero _).symm, rfl⟩
  | cons cur next ih =>
    rw [parseMessage, IsbnHyphenate.parseMessage]
    by_cases hgroups : cur.name = "RegistrationGroups"
    · rw [if_pos hgroups, if_pos hgroups, childrenNamed_pos hgroups, List.flatMap_cons,
        List.map_append, List.sum_append]
      refine (groups_accounts hrows 0 cur.children).bind fun p q own hpost => ?_
      obtain ⟨rc, isbn'⟩ := p
      obtain ⟨rc', table⟩ := q
      obtain ⟨rfl, rfl, hrows', rest, rfl, hcard⟩ := hpost
      refine ((ih hrows' _).frame rest).mono fun p q own hrest => ?_
      obtain ⟨o, rfl, hrc, hplain, howns⟩ := hrest
      exact ⟨hrc, hplain, howns.beside hcard⟩
    · rw [if_neg hgroups, if_neg hgroups, childrenNamed_neg hgroups]
      exact ih hrows docErr

theorem readRoot_accounts {isbn : IsbnInfo} (hrows : isbn.Rows) (root : Option XmlNode) :
    Accounts isbn.blocks
      (readRoot { isbn with table := { isbn.table with curValue := 0 } } root)
      (IsbnHyphenate.parseDoc isbn.plain root)
      fun p q own => p.1 = q.1 ∧ p.2.plain = q.2 ∧ Owns own p.2 (lostStrings root) := by
  cases root with
  | none => exact .pure ⟨rfl, rfl, hrows, 0, (Multiset.add_zero _).symm, rfl⟩
  | some cur =>
    rw [readRoot, IsbnHyphenate.parseDoc, lostStrings, groupNodes]
    by_cases hname : cur.name = "ISBNRangeMessage"
    · rw [if_neg (not_not.mpr hname), if_neg (not_not.mpr hname), if_pos hname]
      have hcleared : ({ isbn with table := { isbn.table with curValue := 0 } } :
          IsbnInfo).Rows := hrows
      exact message_accounts hcleared 0 cur.children
    · rw [if_pos hname, if_pos hname, if_neg hname]
      exact .pure ⟨rfl, rfl, hrows, 0, (Multiset.add_zero _).symm, rfl⟩

theorem parseDoc_accounts {isbn : IsbnInfo} (hrows : isbn.Rows) (doc : Option (Option XmlNode)) :
    Accounts isbn.blocks (parseDoc isbn doc) (IsbnHyphenate.parseDoc isbn.plain doc.join)
      fun p q own => p.1 = q.1 ∧ p.2.plain = q.2 ∧ Owns own p.2 (lostStrings doc.join) := by
  cases doc with
  | none => exact .pure ⟨rfl, rfl, hrows, 0, (Multiset.add_zero _).symm, rfl⟩
  | some root =>
    refine .malloc fun block => ?_
    refine ((readRoot_accounts hrows root).frame_cons block).andThen fun ret q own hpost => ?_
    obtain ⟨o, rfl, hret⟩ := hpost
    exact .free (.pure hret)

/-- Every document ends as it does for the parser without blocks, so no string is
read or freed that is no longer live. What is live behind it are the strings of the
record, each one a block of its own, and a lost one for each element in vain. -/
theorem parser_ledger (doc : Option (Option XmlNode)) (h : Heap) :
    (∀ e, IsbnHyphenate.builtTable doc.join = .error e → builtTable doc h = .error e) ∧
    ∀ rc table, IsbnHyphenate.builtTable doc.join = .ok (rc, table) →
      ∃ isbn h' lost, builtTable doc h = .ok ((rc, isbn), h') ∧ isbn.plain = table ∧
        isbn.rows.length = table.prefixNr ∧ isbn.blocks.Nodup ∧
        h'.live = (isbn.blocks : Multiset ℕ) + lost + h.live ∧
        lost.card = lostStrings doc.join := by
  have hrun : Accounts 0 (builtTable doc) (IsbnHyphenate.builtTable doc.join)
      fun p q own => p.1 = q.1 ∧ p.2.plain = q.2 ∧ Owns own p.2 (lostStrings doc.join) := by
    refine .plain fun table htable => ?_
    obtain ⟨fst, -, hnew⟩ := run_bind_ok htable
    cases hnew
    have hrows : (⟨none, none, [], ⟨none, none, 0, vecNew, vecNew, 0, 0, ⟨none, none, some 0, 0⟩,
      fst⟩⟩ : IsbnInfo).Rows := rfl
    exact parseDoc_accounts hrows doc
  have hend := hrun h h.live (Multiset.zero_add _).symm
  refine ⟨fun e he => ?_, fun rc table htable => ?_⟩
  · rw [he] at hend
    exact hend.of_error
  · rw [htable] at hend
    obtain ⟨⟨⟨rc', isbn⟩, h'⟩, hcall, own, hpost, hlive⟩ := hend.of_ok
    obtain ⟨rfl, rfl, hrows, lost, rfl, hcard⟩ := hpost
    refine ⟨isbn, h', lost, hcall, rfl, hrows, ?_, hlive, hcard⟩
    have hnodup := h'.nodup
    rw [hlive, Multiset.add_assoc] at hnodup
    exact Multiset.coe_nodup.mp (Multiset.nodup_of_le (Multiset.le_add_right _ _) hnodup)

/-- A second prefix is lost, and of three ranges the first one; the second has no text. -/
example : lostStrings (some (.mk "ISBNRangeMessage" none [.mk "RegistrationGroups" none
    [.mk "Group" none [.mk "Prefix" (some []) [], .mk "Prefix" (some []) [],
      .mk "Rules" none [.mk "Rule" none [.mk "Range" (some []) [], .mk "Range" none [],
        .mk "Range" (some []) [], .mk "Length" (some []) []]]]]])) = 2 := by decide

end IsbnHyphenate.Owned
