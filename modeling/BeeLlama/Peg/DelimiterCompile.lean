import BeeLlama.Grammar.Language
import BeeLlama.Peg.DelimiterText

/-!
# The rules that are read from a text

* `Symbols`: the symbol ids are those of their names, one for each.
* `compiled_foldl`: every rule of the text is a rule of the grammar, under the id of its name.
* `allDefined_foldl`: the grammar is accepted if the text has a rule for each name.
-/

namespace BeeLlama.Peg

open Gbnf List Option

/-- The id of a name. -/
def symbolId (p : GbnfParser) (name : List UInt8) : Nat := (p.symbolIds.lookup name).getD 0

/-- Every symbol has a name and an id of its own, and no rule is behind the symbols. -/
structure Symbols (p : GbnfParser) : Prop where
  ids : p.symbolIds.map Prod.snd = List.range p.symbolIds.length
  nodup : (p.symbolIds.map Prod.fst).Nodup
  rules_le : p.rules.length ≤ p.symbolIds.length

/-- The names keep their ids. -/
def Extends (p p' : GbnfParser) : Prop :=
  ∀ name id, p.symbolIds.lookup name = some id → p'.symbolIds.lookup name = some id

theorem Extends.refl (p : GbnfParser) : Extends p p := fun _ _ h => h

theorem Extends.trans {p p' p'' : GbnfParser} (h : Extends p p') (h' : Extends p' p'') :
    Extends p p'' := fun name id e => h' name id (h name id e)

section Symbols

variable {p : GbnfParser}

variable {name : List UInt8} {id : Nat}

theorem lookup_eq_some_iff {l : List (List UInt8 × Nat)} (h : (l.map Prod.fst).Nodup) :
    l.lookup name = some id ↔ (name, id) ∈ l := by
  induction l with
  | nil => simp
  | cons a l ih =>
    obtain ⟨hnot, hrest⟩ := nodup_cons.mp h
    have hl : l.lookup name = some id ↔ (name, id) ∈ l := ih hrest
    rw [lookup_cons, mem_cons]
    by_cases hk : name = a.1
    · subst hk
      have hmem : (a.1, id) ∉ l := fun hb => hnot (mem_map.mpr ⟨_, hb, rfl⟩)
      simp only [beq_self_eq_true, Option.some.injEq, or_iff_left hmem]
      exact ⟨fun e => by rw [← e], fun e => by rw [← e]⟩
    · rw [beq_eq_false_iff_ne.mpr hk]
      exact hl.trans (or_iff_right fun e => hk (congrArg Prod.fst e)).symm

theorem Symbols.mem_iff (h : Symbols p) :
    p.symbolIds.lookup name = some id ↔ (name, id) ∈ p.symbolIds := lookup_eq_some_iff h.nodup

theorem Symbols.lt (h : Symbols p)
    (e : p.symbolIds.lookup name = some id) : id < p.symbolIds.length := by
  have hmem : id ∈ p.symbolIds.map Prod.snd := mem_map.mpr ⟨_, h.mem_iff.mp e, rfl⟩
  rw [h.ids] at hmem
  exact mem_range.mp hmem

theorem Symbols.inj (h : Symbols p) {name name' : List UInt8}
    (e : p.symbolIds.lookup name = some id) (e' : p.symbolIds.lookup name' = some id) :
    name = name' := by
  have hnd : (p.symbolIds.map Prod.snd).Nodup := h.ids ▸ nodup_range
  have := inj_on_of_nodup_map hnd (h.mem_iff.mp e) (h.mem_iff.mp e') rfl
  exact congrArg Prod.fst this

theorem Symbols.exists_name (h : Symbols p) (hid : id < p.symbolIds.length) :
    ∃ name, p.symbolIds.lookup name = some id := by
  have hmem : id ∈ p.symbolIds.map Prod.snd := h.ids ▸ mem_range.mpr hid
  obtain ⟨⟨name, id'⟩, hm, rfl⟩ := mem_map.mp hmem
  exact ⟨name, h.mem_iff.mpr hm⟩

/-- `get_symbol_id` adds at most the name. -/
theorem getSymbolId_spec (h : Symbols p) (name : List UInt8) :
    Symbols (p.getSymbolId name).1 ∧ Extends p (p.getSymbolId name).1 ∧
      (p.getSymbolId name).1.symbolIds.lookup name = some (p.getSymbolId name).2 ∧
      (p.getSymbolId name).1.rules = p.rules ∧
      ∀ n id, (p.getSymbolId name).1.symbolIds.lookup n = some id →
        n = name ∨ p.symbolIds.lookup n = some id := by
  unfold GbnfParser.getSymbolId
  cases e : p.symbolIds.lookup name with
  | some id => exact ⟨h, .refl p, e, rfl, fun n id' hn => .inr hn⟩
  | none =>
    have hnot : name ∉ p.symbolIds.map Prod.fst := by
      intro hm
      obtain ⟨a, ha, rfl⟩ := mem_map.mp hm
      have := h.mem_iff.mpr ha
      rw [e] at this
      cases this
    have hs : Symbols { p with symbolIds := p.symbolIds ++ [(name, p.symbolIds.length)] } := by
      refine ⟨?_, ?_, ?_⟩
      · simp [h.ids, range_succ]
      · dsimp only
        rw [map_append]
        refine nodup_append.mpr ⟨h.nodup, nodup_singleton _, fun a ha b hb => ?_⟩
        rintro rfl
        have hb : a = name := mem_singleton.mp hb
        exact hnot (hb ▸ ha)
      · have := h.rules_le
        simp only [length_append, length_singleton]
        omega
    refine ⟨hs, fun n id hn => ?_, ?_, rfl, fun n id hn => ?_⟩
    · exact hs.mem_iff.mpr (mem_append_left _ (h.mem_iff.mp hn))
    · exact hs.mem_iff.mpr (mem_append_right _ (mem_singleton_self _))
    · rcases mem_append.mp (hs.mem_iff.mp hn) with hm | hm
      · exact .inr (h.mem_iff.mpr hm)
      · exact .inl (congrArg Prod.fst (mem_singleton.mp hm))

/-- `add_rule` sets the rule with the id. -/
theorem getD_addRule (p : GbnfParser) (id : Nat) (rule : GrammarRule) (i : Nat) :
    (p.addRule id rule).rules.getD i [] = if i = id then rule else p.rules.getD i [] := by
  unfold GbnfParser.addRule
  simp only [getD_eq_getElem?_getD, getElem?_set, length_append,
    length_replicate, getElem?_append, getElem?_replicate]
  by_cases hi : i = id
  · subst hi
    rw [if_pos rfl, if_pos rfl, if_pos (by omega)]
    rfl
  · rw [if_neg (Ne.symm hi), if_neg hi]
    split
    · rfl
    · next hge =>
      rw [getElem?_eq_none (by omega)]
      split <;> rfl

theorem length_addRule (p : GbnfParser) (id : Nat) (rule : GrammarRule) :
    (p.addRule id rule).rules.length = max p.rules.length (id + 1) := by
  unfold GbnfParser.addRule
  simp only [length_set, length_append, length_replicate]
  omega

end Symbols

/-! ## Elements -/

/-- The elements of an alternative, by the ids of the names. -/
def altElems (id : List UInt8 → Nat) (a : TextAlt) : List GrammarElement :=
  readClass a.chars a.negate ++ match a.ref with
    | none => []
    | some name => [⟨.ruleRef, id name⟩]

/-- The alternatives of a rule. -/
def bodyChunks (id : List UInt8 → Nat) (r : TextRule) : List (List GrammarElement) :=
  (if r.optional then [[]] else []) ++ r.alts.map (altElems id)

/-- The elements of alternatives. -/
def joinChunks : List (List GrammarElement) → GrammarRule
  | [] => []
  | c :: cs => c ++ cs.flatMap fun c => ⟨.alt, 0⟩ :: c

section Compile

variable {p : GbnfParser}

/-- What an alternative does to the symbols. -/
theorem compileAlt_spec (h : Symbols p) (a : TextAlt) :
    Symbols (compileAlt p a).1 ∧ Extends p (compileAlt p a).1 ∧
      (compileAlt p a).1.rules = p.rules ∧
      (∀ n, a.ref = some n → (compileAlt p a).1.symbolIds.lookup n ≠ none) ∧
      (∀ n id, (compileAlt p a).1.symbolIds.lookup n = some id →
        a.ref = some n ∨ p.symbolIds.lookup n = some id) ∧
      ∀ p', Extends (compileAlt p a).1 p' → (compileAlt p a).2 = altElems (symbolId p') a := by
  unfold compileAlt altElems
  cases href : a.ref with
  | none =>
    refine ⟨h, .refl p, rfl, (fun n hn => by cases hn), fun n id hn => .inr hn, fun p' _ => ?_⟩
    exact (append_nil _).symm
  | some name =>
    obtain ⟨h1, h2, h3, h4, h5⟩ := getSymbolId_spec h name
    refine ⟨h1, h2, h4, fun n hn => ?_, fun n id hn => ?_, fun p' hp' => ?_⟩
    · cases hn
      rw [h3]
      exact some_ne_none _
    · rcases h5 n id hn with rfl | hn
      · exact .inl rfl
      · exact .inr hn
    · simp only [symbolId, hp' name _ h3, getD_some]

/-- What alternatives do to the symbols. -/
theorem compileAlts_spec (h : Symbols p) (as : List TextAlt) (rule : GrammarRule) :
    Symbols (compileAlts as p rule).1 ∧ Extends p (compileAlts as p rule).1 ∧
      (compileAlts as p rule).1.rules = p.rules ∧
      (∀ a ∈ as, ∀ n, a.ref = some n → (compileAlts as p rule).1.symbolIds.lookup n ≠ none) ∧
      (∀ n id, (compileAlts as p rule).1.symbolIds.lookup n = some id →
        (∃ a ∈ as, a.ref = some n) ∨ p.symbolIds.lookup n = some id) ∧
      ∀ p', Extends (compileAlts as p rule).1 p' → (compileAlts as p rule).2 =
        rule ++ (as.map (altElems (symbolId p'))).flatMap fun c => ⟨.alt, 0⟩ :: c := by
  induction as generalizing p rule with
  | nil =>
    exact ⟨h, .refl p, rfl, fun a ha => absurd ha not_mem_nil, fun n id hn => .inr hn,
      fun p' _ => by simp [compileAlts]⟩
  | cons a as ih =>
    obtain ⟨h1, h2, h3, h4, h5, h6⟩ := compileAlt_spec h a
    obtain ⟨k1, k2, k3, k4, k5, k6⟩ := ih h1 (rule ++ [⟨.alt, 0⟩] ++ (compileAlt p a).2)
    refine ⟨k1, h2.trans k2, k3.trans h3, fun b hb n hn => ?_, fun n id hn => ?_, fun p' hp' => ?_⟩
    · rcases mem_cons.mp hb with rfl | hb
      · obtain ⟨id, hid⟩ := ne_none_iff_exists'.mp (h4 n hn)
        change (compileAlts as (compileAlt p b).1 _).1.symbolIds.lookup n ≠ none
        rw [k2 n id hid]
        exact some_ne_none _
      · exact k4 b hb n hn
    · rcases k5 n id hn with ⟨b, hb, hbn⟩ | hn
      · exact .inl ⟨b, mem_cons_of_mem a hb, hbn⟩
      · rcases h5 n id hn with hn | hn
        · exact .inl ⟨a, mem_cons_self, hn⟩
        · exact .inr hn
    · refine (k6 p' hp').trans ?_
      rw [h6 p' (k2.trans hp')]
      simp

/-- What the body of a rule does to the symbols. -/
theorem compileBody_spec (h : Symbols p) (r : TextRule) :
    Symbols (compileBody p r).1 ∧ Extends p (compileBody p r).1 ∧
      (compileBody p r).1.rules = p.rules ∧
      (∀ a ∈ r.alts, ∀ n, a.ref = some n → (compileBody p r).1.symbolIds.lookup n ≠ none) ∧
      (∀ n id, (compileBody p r).1.symbolIds.lookup n = some id →
        (∃ a ∈ r.alts, a.ref = some n) ∨ p.symbolIds.lookup n = some id) ∧
      ∀ p', Extends (compileBody p r).1 p' →
        (compileBody p r).2 = joinChunks (bodyChunks (symbolId p') r) := by
  unfold compileBody bodyChunks
  by_cases hopt : r.optional = true
  · simp only [if_pos hopt]
    exact compileAlts_spec h r.alts []
  · simp only [if_neg hopt]
    obtain ⟨h1, h2, h3, h4, h5, h6⟩ := compileAlt_spec h r.first
    obtain ⟨k1, k2, k3, k4, k5, k6⟩ := compileAlts_spec h1 r.rest (compileAlt p r.first).2
    refine ⟨k1, h2.trans k2, k3.trans h3, fun b hb n hn => ?_, fun n id hn => ?_, fun p' hp' => ?_⟩
    · rcases mem_cons.mp hb with rfl | hb
      · obtain ⟨id, hid⟩ := ne_none_iff_exists'.mp (h4 n hn)
        rw [k2 n id hid]
        exact some_ne_none _
      · exact k4 b hb n hn
    · rcases k5 n id hn with ⟨b, hb, hbn⟩ | hn
      · exact .inl ⟨b, mem_cons_of_mem _ hb, hbn⟩
      · rcases h5 n id hn with hn | hn
        · exact .inl ⟨_, mem_cons_self, hn⟩
        · exact .inr hn
    · refine (k6 p' hp').trans ?_
      rw [h6 p' (k2.trans hp')]
      simp [joinChunks, TextRule.alts]

/-- The rule is in the grammar, under the id of its name. -/
structure Compiled (p : GbnfParser) (r : TextRule) : Prop where
  name : p.symbolIds.lookup r.name ≠ none
  refs : ∀ a ∈ r.alts, ∀ n, a.ref = some n → p.symbolIds.lookup n ≠ none
  rule : p.rules.getD (symbolId p r.name) [] =
    joinChunks (bodyChunks (symbolId p) r) ++ [⟨.end_, 0⟩]

/-- Ids that agree on the names of a rule give the same elements. -/
theorem bodyChunks_congr {id id' : List UInt8 → Nat} {r : TextRule}
    (h : ∀ a ∈ r.alts, ∀ n, a.ref = some n → id n = id' n) :
    bodyChunks id r = bodyChunks id' r := by
  unfold bodyChunks
  congr 1
  refine map_congr_left fun a ha => ?_
  unfold altElems
  cases href : a.ref with
  | none => rfl
  | some n => simp only [h a ha n href]

variable {n : List UInt8} {p' : GbnfParser} {e : GrammarElement} {id : List UInt8 → Nat}

theorem lookup_symbolId (h : p.symbolIds.lookup n ≠ none) :
    p.symbolIds.lookup n = some (symbolId p n) := by
  obtain ⟨id, hid⟩ := ne_none_iff_exists'.mp h
  rw [symbolId, hid, getD_some]

theorem Extends.symbolId_eq (h : Extends p p')
    (hn : p.symbolIds.lookup n ≠ none) : symbolId p' n = symbolId p n := by
  rw [symbolId, h n _ (lookup_symbolId hn), getD_some]

theorem Extends.ne_none (h : Extends p p')
    (hn : p.symbolIds.lookup n ≠ none) : p'.symbolIds.lookup n ≠ none := by
  rw [h n _ (lookup_symbolId hn)]
  exact some_ne_none _

/-- What a rule does to the parser. -/
theorem compileRule_spec (h : Symbols p) (r : TextRule) :
    Symbols (compileRule p r) ∧ Extends p (compileRule p r) ∧ Compiled (compileRule p r) r ∧
      (∀ n id, (compileRule p r).symbolIds.lookup n = some id →
        n = r.name ∨ (∃ a ∈ r.alts, a.ref = some n) ∨ p.symbolIds.lookup n = some id) ∧
      ∀ n, p.symbolIds.lookup n ≠ none → n ≠ r.name →
        (compileRule p r).rules.getD (symbolId p n) [] = p.rules.getD (symbolId p n) [] := by
  obtain ⟨h1, h2, h3, h4, h5⟩ := getSymbolId_spec h r.name
  obtain ⟨k1, k2, k3, k4, k5, k6⟩ := compileBody_spec h1 r
  -- the rule only changes the rules
  have hext : Extends (compileBody (p.getSymbolId r.name).1 r).1 (compileRule p r) :=
    fun _ _ hn => hn
  have hname : (compileRule p r).symbolIds.lookup r.name = some (p.getSymbolId r.name).2 :=
    hext _ _ (k2 _ _ h3)
  have hid : symbolId (compileRule p r) r.name = (p.getSymbolId r.name).2 := by
    rw [symbolId, hname, getD_some]
  have hs : Symbols (compileRule p r) := by
    refine ⟨k1.ids, k1.nodup, ?_⟩
    have hlt : (p.getSymbolId r.name).2 < (compileRule p r).symbolIds.length := k1.lt (k2 _ _ h3)
    have hle : (compileBody (p.getSymbolId r.name).1 r).1.rules.length ≤
        (compileRule p r).symbolIds.length := k1.rules_le
    refine le_of_eq_of_le (length_addRule _ _ _) ?_
    omega
  refine ⟨hs, (h2.trans k2).trans hext, ⟨?_, ?_, ?_⟩, fun n id hn => ?_, fun n hn hne => ?_⟩
  · rw [hname]
    exact some_ne_none _
  · exact fun a ha n hn => hext.ne_none (k4 a ha n hn)
  · rw [hid]
    refine (getD_addRule _ _ _ _).trans ?_
    rw [if_pos rfl, k6 _ hext]
  · rcases k5 n id hn with hn | hn
    · exact .inr (.inl hn)
    · rcases h5 n id hn with hn | hn
      · exact .inl hn
      · exact .inr (.inr hn)
  · have hne' : symbolId p n ≠ (p.getSymbolId r.name).2 := fun e => by
      have hn' := ((h2.trans k2).trans hext) n _ (lookup_symbolId hn)
      exact hne (hs.inj hn' (e ▸ hname))
    refine (getD_addRule _ _ _ _).trans ?_
    rw [if_neg hne', k3, h4]

/-- Every rule of a text is in the grammar, and only the names of the text are symbols. -/
theorem compiled_foldl (rs : List TextRule) (hnd : (rs.map TextRule.name).Nodup)
    {p : GbnfParser} (h : Symbols p) {done : List TextRule} (hdone : ∀ r ∈ done, Compiled p r)
    (hnew : ∀ r ∈ done, r.name ∉ rs.map TextRule.name)
    (hnames : ∀ n, p.symbolIds.lookup n ≠ none →
      ∃ r ∈ done ++ rs, n = r.name ∨ ∃ a ∈ r.alts, a.ref = some n) :
    Symbols (rs.foldl compileRule p) ∧
      (∀ r ∈ done ++ rs, Compiled (rs.foldl compileRule p) r) ∧
      ∀ n, (rs.foldl compileRule p).symbolIds.lookup n ≠ none →
        ∃ r ∈ done ++ rs, n = r.name ∨ ∃ a ∈ r.alts, a.ref = some n := by
  induction rs generalizing p done with
  | nil => exact ⟨h, by simpa using hdone, hnames⟩
  | cons r rs ih =>
    obtain ⟨hnot, hrest⟩ := nodup_cons.mp hnd
    obtain ⟨h1, h2, h3, h4, h5⟩ := compileRule_spec h r
    have hlist : (done ++ [r]) ++ rs = done ++ r :: rs := by simp
    rw [← hlist]
    refine ih hrest h1 (fun r' hr' => ?_) (fun r' hr' => ?_) fun n hn => ?_
    · rcases mem_append.mp hr' with hr' | hr'
      · have hc := hdone r' hr'
        have hne : r'.name ≠ r.name := fun e => hnew r' hr' (by rw [e]; exact mem_cons_self)
        refine ⟨h2.ne_none hc.name, fun a ha n hn => h2.ne_none (hc.refs a ha n hn), ?_⟩
        rw [h2.symbolId_eq hc.name, h5 r'.name hc.name hne, hc.rule]
        congr 2
        exact bodyChunks_congr fun a ha n hn => (h2.symbolId_eq (hc.refs a ha n hn)).symm
      · rw [mem_singleton.mp hr']
        exact h3
    · rcases mem_append.mp hr' with hr' | hr'
      · exact fun hm => hnew r' hr' (mem_cons_of_mem _ hm)
      · rw [mem_singleton.mp hr']
        exact hnot
    · rw [hlist]
      obtain ⟨id, hid⟩ := ne_none_iff_exists'.mp hn
      have hr : r ∈ done ++ r :: rs := mem_append_right _ mem_cons_self
      rcases h4 n id hid with hn' | hn' | hn'
      · exact ⟨r, hr, .inl hn'⟩
      · exact ⟨r, hr, .inr hn'⟩
      · exact hnames n (by rw [hn']; exact some_ne_none _)

/-! ## The grammar is accepted -/

theorem mem_readClass {chars : List Nat} {negate : Bool}
    (h : e ∈ readClass chars negate) : e.type = .char ∨ e.type = .charNot ∨ e.type = .charAlt := by
  have hcls : ∀ {t : GreType} {cs : List Nat}, e ∈ classElems t cs →
      e.type = t ∨ e.type = .charAlt := by
    intro t cs he
    cases cs with
    | nil => cases he
    | cons c cs =>
      rcases mem_cons.mp he with rfl | he
      · exact .inl rfl
      · obtain ⟨d, -, rfl⟩ := mem_map.mp he
        exact .inr rfl
  unfold readClass at h
  split at h
  · exact .inr (hcls h)
  · split at h
    · exact .inr (hcls h)
    · rcases hcls h with h | h
      · exact .inl h
      · exact .inr (.inr h)

/-- An element of an alternative is one of a class, or a reference to its name. -/
theorem mem_altElems {a : TextAlt}
    (h : e ∈ altElems id a) : (e.type = .char ∨ e.type = .charNot ∨ e.type = .charAlt) ∨
      ∃ n, a.ref = some n ∧ e = ⟨.ruleRef, id n⟩ := by
  unfold altElems at h
  rcases mem_append.mp h with h | h
  · exact .inl (mem_readClass h)
  · cases href : a.ref with
    | none =>
      rw [href] at h
      cases h
    | some n =>
      rw [href] at h
      exact .inr ⟨n, rfl, mem_singleton.mp h⟩

theorem mem_joinChunks {cs : List (List GrammarElement)}
    (h : e ∈ joinChunks cs) : e = ⟨.alt, 0⟩ ∨ ∃ c ∈ cs, e ∈ c := by
  cases cs with
  | nil => cases h
  | cons c cs =>
    rcases mem_append.mp h with h | h
    · exact .inr ⟨c, mem_cons_self, h⟩
    · obtain ⟨d, hd, h⟩ := mem_flatMap.mp h
      rcases mem_cons.mp h with h | h
      · exact .inl h
      · exact .inr ⟨d, mem_cons_of_mem c hd, h⟩

theorem mem_bodyChunks {r : TextRule} {c : List GrammarElement} (hc : c ∈ bodyChunks id r)
    (he : e ∈ c) :
    ∃ a ∈ r.alts, e ∈ altElems id a := by
  unfold bodyChunks at hc
  rcases mem_append.mp hc with hc | hc
  · split at hc
    · rw [mem_singleton.mp hc] at he
      cases he
    · cases hc
  · obtain ⟨a, ha, rfl⟩ := mem_map.mp hc
    exact ⟨a, ha, he⟩

/-- The grammar of a text is accepted if the text has a rule for each name. -/
theorem allDefined_of_compiled (h : Symbols p) {rs : List TextRule} (hc : ∀ r ∈ rs, Compiled p r)
    (hnames : ∀ n, p.symbolIds.lookup n ≠ none →
      ∃ r ∈ rs, n = r.name ∨ ∃ a ∈ r.alts, a.ref = some n)
    (hrefs : ∀ r ∈ rs, ∀ a ∈ r.alts, ∀ n, a.ref = some n → ∃ r' ∈ rs, r'.name = n) :
    allDefined p.rules = true := by
  -- the rule of a symbol is one of the text
  have hrule : ∀ n, p.symbolIds.lookup n ≠ none → ∃ r ∈ rs, r.name = n := by
    intro n hn
    obtain ⟨r, hr, rfl | ⟨a, ha, han⟩⟩ := hnames n hn
    · exact ⟨r, hr, rfl⟩
    · exact hrefs r hr a ha n han
  have hne : ∀ n, p.symbolIds.lookup n ≠ none → p.rules.getD (symbolId p n) [] ≠ [] := by
    intro n hn
    obtain ⟨r, hr, rfl⟩ := hrule n hn
    rw [(hc r hr).rule]
    exact append_ne_nil_of_right_ne_nil _ (cons_ne_nil _ _)
  refine all_eq_true.mpr fun rule hmem => ?_
  obtain ⟨i, hi, rfl⟩ := mem_iff_getElem.mp hmem
  obtain ⟨n, hn⟩ := h.exists_name (lt_of_lt_of_le hi h.rules_le)
  have hn' : p.symbolIds.lookup n ≠ none := by
    rw [hn]
    exact some_ne_none _
  have hid : symbolId p n = i := by rw [symbolId, hn, getD_some]
  have hget : p.rules[i] = p.rules.getD (symbolId p n) [] := by
    rw [hid, getD_eq_getElem?_getD, getElem?_eq_getElem hi, getD_some]
  rw [hget]
  obtain ⟨r, hr, rfl⟩ := hrule n hn'
  have hnonempty := hne _ hn'
  refine Bool.and_eq_true_iff.mpr ⟨by simpa using hnonempty, all_eq_true.mpr fun e he => ?_⟩
  rw [(hc r hr).rule] at he
  have hend : e = ⟨.end_, 0⟩ ∨ e = ⟨.alt, 0⟩ ∨ ∃ a ∈ r.alts, e ∈ altElems (symbolId p) a := by
    rcases mem_append.mp he with he | he
    · rcases mem_joinChunks he with he | ⟨c, hcm, he⟩
      · exact .inr (.inl he)
      · exact .inr (.inr (mem_bodyChunks hcm he))
    · exact .inl (mem_singleton.mp he)
  rcases hend with rfl | rfl | ⟨a, ha, he⟩
  · rfl
  · rfl
  · rcases mem_altElems he with ht | ⟨m, hm, rfl⟩
    · rcases ht with ht | ht | ht <;> simp [ht]
    · have := hne m ((hc r hr).refs a ha m hm)
      simpa using this

end Compile

end BeeLlama.Peg
