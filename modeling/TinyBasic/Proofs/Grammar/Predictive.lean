import Mathlib.Computability.Language
import TinyBasic.Proofs.Grammar.Unambiguity

/-!
# Predictive parsers

A parser that goes by the token in front of it alone notices an error as early as it can be
noticed: the tokens before the faulty one begin a word of the language that is to be read, and
with the faulty one they do not.  `Parser.Rejection` says this of one failure, and
`Parser.Predicts p w L ends` of a parser: in front of `w` it takes a word of `L` and stops at a kind
in `ends`, or it fails as soon as no word of `L` is possible any more, whatever is to be read after
the word.

The combinators of parsers are then the operations on languages: a sequence reads the product of
the languages of its parts (`Parser.Predicts.bind`), a choice their sum (`Parser.Predicts.inl`,
`Parser.Predicts.inr`), and a repetition the star of the language of its rounds
(`Parser.predicts_many`).  What comes before a part must not leave open where it ends
(`Parser.Delimited`).
-/

namespace TinyBasic

open TinyBasic.Tree
open scoped Computability

namespace SyntaxError

/-- What the error says of the token it is reported at. -/
def Describes : SyntaxError → Token → Prop
  | .expected wanted found, t => found = t.kind ∧ wanted ≠ found
  | .invalidStatement text, t => text = t.text ∧ t.kind ≠ .newline ∧ t.kind ≠ .eof
  | .expectedComparison text, t => text = t.text
  | .unexpectedToken text, t => text = t.text

/-- The kinds that could stand in the place of the token, as far as the error names them. -/
def Allows : SyntaxError → Token.Kind → Prop
  | .expected wanted _, k => k = wanted
  | _, _ => True

end SyntaxError

namespace Parser

variable {α β X : Type} {p : Parser α} {f : α → Parser β} {a : α} {w w' : Window}
  {ts us rest : List (Located Token)} {as : List Action} {t : Located Token}
  {L M K : Language (Located Token)} {P Q ends ends' : Token.Kind → Prop}
  {e : Located SyntaxError}

/-! ### Languages of tokens -/

/-- The sequences of tokens that trees have. -/
def yields (tokens : X → List (Located Token)) : Language (Located Token) := Set.range tokens

/-- A single token of a kind that satisfies `P`. -/
def one (P : Token.Kind → Prop) : Language (Located Token) :=
  yields fun l : Leaf P => [l.token]

/-- What is in `K` begins with a kind that satisfies `P`, or with none. -/
def Begins (K : Language (Located Token)) (P : Token.Kind → Prop) : Prop :=
  ∀ us ∈ K, Follows P us

/-- What is in `L` begins with a kind that satisfies `P`. -/
def Opens (L : Language (Located Token)) (P : Token.Kind → Prop) : Prop :=
  ∀ us ∈ L, ∃ t ts, us = t :: ts ∧ P t.value.kind

/-- Where a word of `L` ends can be told when a kind in `ends` comes after it. -/
def Delimited (L : Language (Located Token)) (ends : Token.Kind → Prop) : Prop :=
  ∀ ⦃ts⦄, ts ∈ L → ∀ ⦃us⦄, us ∈ L → ∀ ⦃r r' : List (Located Token)⦄, ts ++ r = us ++ r' →
    Follows ends r → Follows ends r' → ts = us

theorem mem_one (h : P t.value.kind) : [t] ∈ one P := ⟨⟨t, h⟩, rfl⟩

theorem Begins.mono (h : Begins K P) (hPQ : ∀ k, P k → Q k) : Begins K Q :=
  fun us hus => (h us hus).mono hPQ

theorem Opens.mono (h : Opens L P) (hPQ : ∀ k, P k → Q k) : Opens L Q := by
  intro us hus
  obtain ⟨t, ts, rfl, ht⟩ := h us hus
  exact ⟨t, ts, rfl, hPQ _ ht⟩

theorem opens_one : Opens (one P) P := by
  rintro _ ⟨l, rfl⟩
  exact ⟨l.token, [], rfl, l.fits⟩

theorem Opens.mul_right (h : Opens L P) (M : Language (Located Token)) : Opens (L * M) P := by
  intro us hus
  obtain ⟨ts, hts, vs, -, rfl⟩ := Language.mem_mul.1 hus
  obtain ⟨t, ts, rfl, ht⟩ := h ts hts
  exact ⟨t, ts ++ vs, rfl, ht⟩

theorem Opens.begins (h : Opens L P) : Begins L P := by
  intro us hus
  obtain ⟨t, ts, rfl, ht⟩ := h us hus
  exact follows_cons.2 ht

/-- After a repetition comes another round or what comes after it. -/
theorem Opens.begins_kstar_mul (hL : Opens L P) (hK : Begins K P) : Begins (L∗ * K) P := by
  rw [← Language.one_add_self_mul_kstar_eq_kstar, add_mul, one_mul]
  rintro us (hus | hus)
  · exact hK us hus
  · exact ((hL.mul_right _).mul_right _).begins us hus

theorem nonempty_mul (hL : Set.Nonempty L) (hM : Set.Nonempty M) :
    Set.Nonempty (L * M : Language (Located Token)) := by
  obtain ⟨ts, hts⟩ := hL
  obtain ⟨us, hus⟩ := hM
  exact ⟨ts ++ us, Language.append_mem_mul hts hus⟩

theorem nonempty_kstar (L : Language (Located Token)) :
    Set.Nonempty (L∗ : Language (Located Token)) :=
  ⟨[], Language.nil_mem_kstar L⟩

theorem nonempty_yields [Nonempty X] (tokens : X → List (Located Token)) :
    Set.Nonempty (yields tokens) :=
  Set.range_nonempty tokens

theorem delimited_yields {tokens : X → List (Located Token)} (h : Determines tokens ends) :
    Delimited (yields tokens) ends := by
  rintro _ ⟨x, rfl⟩ _ ⟨y, rfl⟩ r r' heq hr hr'
  rw [(h heq hr hr').1]

theorem delimited_one : Delimited (one P) ends := delimited_yields determines_leaf

/-! ### Rejections -/

/-- In front of `w`, where a word of `L` should stand, the tokens `ts` begin one and the token `t`
does not go on with it: this is what the error `e` says. -/
structure Rejection (L : Language (Located Token)) (w : Window) (e : Located SyntaxError)
    (ts : List (Located Token)) (t : Located Token) : Prop where
  items : ∃ later, w.items = ts.map .ok ++ .ok t :: later
  location : e.location = t.location
  describes : e.value.Describes t.value
  viable : ∃ (t' : Located Token) (us : List (Located Token)),
    e.value.Allows t'.value.kind ∧ ts ++ t' :: us ∈ L
  stuck : ∀ us ∈ L, ¬ ts ++ [t] <+: us

/-- Where the parser fails with a syntax error, it is because no word of `L` is in front. -/
def RejectsIn (p : Parser α) (w : Window) (L : Language (Located Token)) : Prop :=
  ∀ e, (p.run w).result = .error (.syntactic e) → ∃ ts t, Rejection L w e ts t

/-- After `ts` the words of `L` go on with those of `M`, as far as they go on with `t`. -/
structure After (L : Language (Located Token)) (ts : List (Located Token)) (t : Located Token)
    (M : Language (Located Token)) : Prop where
  append_mem : ∀ us ∈ M, ts ++ us ∈ L
  mem : ∀ us, us.head? = some t → ts ++ us ∈ L → us ∈ M

/-- The faulty token is the current one, or the current one comes before it. -/
theorem Rejection.head?_eq (h : Rejection L w e ts t) : (ts ++ [t]).head? = some w.current := by
  obtain ⟨later, hi⟩ := h.items
  have hhead := w.head_items
  rw [hi] at hhead
  cases ts with
  | nil => exact congrArg some (Except.ok.inj (Option.some.inj hhead))
  | cons u us => exact congrArg some (Except.ok.inj (Option.some.inj hhead))

/-- **A rejection further on is a rejection from the start.** -/
theorem Rejection.prepend (h : Rejection M w' e us t) (hi : w.items = ts.map .ok ++ w'.items)
    (hM : After L ts w'.current M) : Rejection L w e (ts ++ us) t where
  items := by
    obtain ⟨later, hi'⟩ := h.items
    exact ⟨later, by rw [hi, hi', List.map_append, List.append_assoc]⟩
  location := h.location
  describes := h.describes
  viable := by
    obtain ⟨t', vs, ht', hvs⟩ := h.viable
    exact ⟨t', vs, ht', by rw [List.append_assoc]; exact hM.append_mem _ hvs⟩
  stuck := by
    rintro _ hvs ⟨later, rfl⟩
    rw [List.append_assoc, List.append_assoc] at hvs
    -- the word goes on with the current token, so the rest of it was possible there
    have hhead : ((us ++ [t]) ++ later).head? = some w'.current := by
      rw [List.head?_append, h.head?_eq, Option.some_or]
    rw [← List.append_assoc us] at hvs
    exact h.stuck _ (hM.mem _ hhead hvs) (List.prefix_append _ _)

theorem RejectsIn.mono (h : p.RejectsIn w M) (hM : After L [] w.current M) : p.RejectsIn w L := by
  intro e he
  obtain ⟨ts, t, ht⟩ := h e he
  exact ⟨ts, t, ht.prepend rfl hM⟩

/-- A failure at a token that no word begins with. -/
theorem rejectsIn_fail {e : SyntaxError} (he : e.Describes w.current.value)
    (hviable : ∃ t us, e.Allows t.value.kind ∧ t :: us ∈ L) (hL : Begins L P)
    (hc : ¬ P w.current.value.kind) : (fail e : Parser α).RejectsIn w L := by
  intro e' he'
  obtain rfl : (⟨e, w.current.location⟩ : Located SyntaxError) = e' :=
    Failure.syntactic.inj (Except.error.inj he')
  refine ⟨[], w.current, ?_, rfl, he, hviable, ?_⟩
  · obtain ⟨later, hi⟩ := List.head?_eq_some_iff.1 w.head_items
    exact ⟨later, hi⟩
  · rintro _ hus ⟨later, rfl⟩
    exact hc (hL _ hus w.current rfl)

theorem Takes.result_bind (h : p.Takes w ts as a w') :
    ((p >>= f).run w).result = ((f a).run w').result := by
  rw [run_bind_of_ok (show (p.run w).result = .ok a by rw [h.run_eq]), h.run_eq]

/-- A sequence fails in its first part, or after it. -/
theorem RejectsIn.bind (hp : p.RejectsIn w L)
    (hf : ∀ a, (p.run w).result = .ok a → ∃ ts as w' M, p.Takes w ts as a w' ∧
      (f a).RejectsIn w' M ∧ After L ts w'.current M) :
    (p >>= f).RejectsIn w L := by
  intro e he
  cases hres : (p.run w).result with
  | error e' =>
    rw [run_bind_of_error hres] at he
    obtain rfl := Except.error.inj he
    exact hp e hres
  | ok a =>
    obtain ⟨ts, as, w', M, ht, hM, hafter⟩ := hf a hres
    rw [ht.result_bind] at he
    obtain ⟨us, t, h⟩ := hM e he
    exact ⟨ts ++ us, t, h.prepend ht.items_eq hafter⟩

theorem RejectsIn.map (hp : p.RejectsIn w L) (g : α → β) : (g <$> p).RejectsIn w L := by
  rw [← bind_pure_comp]
  intro e he
  cases hres : (p.run w).result with
  | error e' =>
    rw [run_bind_of_error hres] at he
    obtain rfl := Except.error.inj he
    exact hp e hres
  | ok a =>
    rw [run_bind_of_ok hres] at he
    cases he

theorem RejectsIn.of_run_eq {q : Parser α} (hq : q.RejectsIn w L) (hrun : p.run w = q.run w) :
    p.RejectsIn w L :=
  fun e he => hq e (hrun ▸ he)

/-! ### Parsers that do not reject -/

/-- The parser never fails with a syntax error. -/
def Silent (p : Parser α) : Prop := ∀ w e, (p.run w).result ≠ .error (.syntactic e)

theorem silent_pure (a : α) : (pure a : Parser α).Silent := fun _ _ h => by cases h

theorem silent_perform (act : Action) : (perform act).Silent := fun _ _ h => by cases h

theorem silent_current : current.Silent := fun _ _ h => by cases h

theorem silent_advance : advance.Silent := by
  intro w e
  cases h : w.advance? with
  | ok w' => simp [run_advance_of_ok h]
  | error e' => simp [run_advance_of_error h]

theorem Silent.bind (hp : p.Silent) (hf : ∀ a, (f a).Silent) : (p >>= f).Silent := by
  intro w e
  cases hres : (p.run w).result with
  | error e' =>
    rw [run_bind_of_error hres]
    intro he
    obtain rfl := Except.error.inj he
    exact hp w e hres
  | ok a =>
    rw [run_bind_of_ok hres]
    exact hf a _ e

theorem Silent.rejectsIn (hp : p.Silent) : p.RejectsIn w L := fun e he => absurd he (hp w e)

/-- The parser always succeeds, and takes nothing. -/
def Idle (p : Parser α) : Prop := ∀ w : Window, w.Settled → ∃ as a, p.Takes w [] as a w

theorem idle_pure (a : α) : (pure a : Parser α).Idle := fun _ hw => ⟨_, _, takes_pure hw a⟩

theorem idle_perform (act : Action) : (perform act).Idle := fun _ hw => ⟨_, _, takes_perform hw act⟩

theorem Idle.bind (hp : p.Idle) (hf : ∀ a, (f a).Idle) : (p >>= f).Idle := by
  intro w hw
  obtain ⟨as, a, ha⟩ := hp w hw
  obtain ⟨bs, b, hb⟩ := hf a w hw
  exact ⟨_, b, ha.bind hb⟩

/-! ### Predictive parsers -/

/-- In front of `w` the parser takes a word of `L` and stops at a kind in `ends`, or it fails as
soon as there is no such word, when what comes after the word is to begin with a kind in `ends`. -/
structure Predicts (p : Parser α) (w : Window) (L : Language (Located Token))
    (ends : Token.Kind → Prop) : Prop where
  takes : ∀ {a}, (p.run w).result = .ok a →
    ∃ ts ∈ L, ∃ as w', p.Takes w ts as a w' ∧ ends w'.current.value.kind
  rejects : ∀ {K : Language (Located Token)}, Set.Nonempty K → Begins K ends →
    p.RejectsIn w (L * K)

theorem Predicts.of_run_eq {q : Parser α} (h : q.Predicts w L ends) (hrun : p.run w = q.run w) :
    p.Predicts w L ends where
  takes ha := by
    obtain ⟨ts, hts, as, w', ht, he⟩ := h.takes (hrun ▸ ha)
    exact ⟨ts, hts, as, w', ht.of_run_eq hrun, he⟩
  rejects hK hbegins e he := h.rejects hK hbegins e (hrun ▸ he)

theorem Predicts.congr (h : p.Predicts w L ends) (hL : L = M) (hends : ∀ k, ends k ↔ ends' k) :
    p.Predicts w M ends' := by
  obtain rfl : ends = ends' := funext fun k => propext (hends k)
  exact hL ▸ h

theorem After.of_delimited (hL : Delimited L ends) (hK : Begins K ends) (hts : ts ∈ L)
    (ht : ends t.value.kind) : After (L * K) ts t K where
  append_mem us hus := Language.append_mem_mul hts hus
  mem us hus h := by
    obtain ⟨ts', hts', us', hus', heq⟩ := Language.mem_mul.1 h
    have hfollows : Follows ends us := fun t' ht' => by
      obtain rfl := Option.some.inj (hus.symm.trans ht')
      exact ht
    obtain rfl := hL hts' hts heq (hK us' hus') hfollows
    exact List.append_cancel_left heq ▸ hus'

/-- A parser after a predictive one. -/
theorem Predicts.rejectsIn_bind (hp : p.Predicts w L ends) (hL : Delimited L ends)
    (hK : Set.Nonempty K) (hends : Begins K ends)
    (hf : ∀ {a ts as w'}, p.Takes w ts as a w' → ends w'.current.value.kind →
      (f a).RejectsIn w' K) :
    (p >>= f).RejectsIn w (L * K) := by
  refine (hp.rejects hK hends).bind fun a ha => ?_
  obtain ⟨ts, hts, as, w', ht, he⟩ := hp.takes ha
  exact ⟨ts, as, w', K, ht, hf ht he, .of_delimited hL hends hts he⟩

/-- **A sequence of predictive parsers reads the product of their languages.** -/
theorem Predicts.bind (hp : p.Predicts w L ends) (hL : Delimited L ends) (hM : Set.Nonempty M)
    (hends : ∀ {K}, Begins K ends' → Begins (M * K) ends)
    (hf : ∀ {a ts as w'}, p.Takes w ts as a w' → ends w'.current.value.kind →
      (f a).Predicts w' M ends') :
    (p >>= f).Predicts w (L * M) ends' where
  takes {b} h := by
    obtain ⟨a, ha, -⟩ := exists_of_bind h
    obtain ⟨ts, hts, as, w₁, ht, he⟩ := hp.takes ha
    obtain ⟨us, hus, bs, w', hu, he'⟩ := (hf ht he).takes (ht.rest_ok h)
    exact ⟨ts ++ us, Language.append_mem_mul hts hus, as ++ bs, w', ht.bind hu, he'⟩
  rejects {K} hK hbegins := by
    rw [mul_assoc]
    exact hp.rejectsIn_bind hL (nonempty_mul hM hK) (hends hbegins) fun ht he =>
      (hf ht he).rejects hK hbegins

/-- A parser after a single token, which nothing has to delimit. -/
theorem Predicts.one_bind (hp : p.Predicts w (one P) fun _ => True) (hM : Set.Nonempty M)
    (hf : ∀ {a ts as w'}, p.Takes w ts as a w' → (f a).Predicts w' M ends') :
    (p >>= f).Predicts w (one P * M) ends' :=
  hp.bind delimited_one hM (fun _ _ _ _ _ => trivial) fun ht _ => hf ht

/-- A parser after one that takes nothing. -/
theorem Takes.predicts_bind (hp : p.Takes w [] as a w) (hf : (f a).Predicts w L ends) :
    (p >>= f).Predicts w L ends where
  takes {b} h := by
    obtain ⟨ts, hts, bs, w', ht, he⟩ := hf.takes (hp.rest_ok h)
    exact ⟨ts, hts, as ++ bs, w', hp.bind ht, he⟩
  rejects hK hbegins e he := hf.rejects hK hbegins e (by rwa [hp.result_bind] at he)

/-- A parser before one that takes nothing. -/
theorem Predicts.bind_idle (hp : p.Predicts w L ends) (hf : ∀ a, (f a).Idle) :
    (p >>= f).Predicts w L ends where
  takes {b} h := by
    obtain ⟨a, ha, -⟩ := exists_of_bind h
    obtain ⟨ts, hts, as, w', ht, he⟩ := hp.takes ha
    obtain ⟨bs, b', hb⟩ := hf a w' ht.settled
    have hall := ht.bind hb
    rw [hall.run_eq] at h
    obtain rfl := Except.ok.inj h
    exact ⟨ts, hts, as ++ bs, w', by simpa using hall, he⟩
  rejects {K} hK hbegins e he := by
    cases hres : (p.run w).result with
    | error e' =>
      rw [run_bind_of_error hres] at he
      obtain rfl := Except.error.inj he
      exact hp.rejects hK hbegins e hres
    | ok a =>
      obtain ⟨ts, hts, as, w', ht, -⟩ := hp.takes hres
      obtain ⟨bs, b, hb⟩ := hf a w' ht.settled
      rw [(ht.bind hb).run_eq] at he
      cases he

theorem predicts_pure (hw : w.Settled) (a : α) (hc : ends w.current.value.kind) :
    (pure a : Parser α).Predicts w 1 ends where
  takes h := ⟨[], Language.nil_mem_one, [], w, Except.ok.inj h ▸ takes_pure hw a, hc⟩
  rejects _ _ := (silent_pure a).rejectsIn

/-- A parser that takes the current token. -/
theorem Silent.predicts (hp : p.Silent) (hc : P w.current.value.kind)
    (htakes : ∀ a, (p.run w).result = .ok a → ∃ as w', p.Takes w [w.current] as a w') :
    p.Predicts w (one P) fun _ => True where
  takes {a} ha := by
    obtain ⟨as, w', ht⟩ := htakes a ha
    exact ⟨[w.current], mem_one hc, as, w', ht, trivial⟩
  rejects _ _ := hp.rejectsIn

theorem predicts_advance (hc : P w.current.value.kind) (heof : w.current.value.kind ≠ .eof) :
    advance.Predicts w (one P) fun _ => True :=
  silent_advance.predicts hc fun _ ha => ⟨_, takes_advance_of_ok heof ha⟩

/-- A failure at a token that nothing to be read begins with. -/
theorem predicts_fail {e : SyntaxError} (he : e.Describes w.current.value)
    (hL : Set.Nonempty L) (hopens : Opens L P) (hallows : ∀ k, P k → e.Allows k)
    (hc : ¬ P w.current.value.kind) : (fail e : Parser α).Predicts w L ends where
  takes h := by cases h
  rejects {K} hK _ := by
    obtain ⟨us, hus⟩ := nonempty_mul hL hK
    obtain ⟨t, ts, rfl, ht⟩ := hopens.mul_right K us hus
    exact rejectsIn_fail he ⟨t, ts, hallows _ ht, hus⟩ (hopens.mul_right K).begins hc

/-- **A choice**, when no word of the other language is in front. -/
theorem Predicts.inl (h : p.Predicts w L ends) (hM : ∀ {K}, Begins K ends → Begins (M * K) P)
    (hc : ¬ P w.current.value.kind) : p.Predicts w (L + M) ends where
  takes ha := by
    obtain ⟨ts, hts, ht⟩ := h.takes ha
    exact ⟨ts, .inl hts, ht⟩
  rejects {K} hK hbegins := by
    refine (h.rejects hK hbegins).mono ⟨fun us hus => ?_, fun us hus hmem => ?_⟩
    · rw [List.nil_append, add_mul]
      exact .inl hus
    · rw [List.nil_append, add_mul] at hmem
      exact hmem.resolve_right fun hother => hc (hM hbegins us hother _ hus)

theorem Predicts.inr (h : p.Predicts w M ends) (hL : ∀ {K}, Begins K ends → Begins (L * K) P)
    (hc : ¬ P w.current.value.kind) : p.Predicts w (L + M) ends :=
  (h.inl hL hc).congr (add_comm M L) fun _ => .rfl

/-! ### Repetitions -/

section Many

variable {continues : Token.Kind → Bool} {body : Parser Unit}
  {h : ∀ w, continues w.current.value.kind = true → body.Consumes w}

/-- A repetition from its first round on. -/
theorem predicts_many_of_pos
    (hpos : continues w.current.value.kind = true →
      (many continues body h).Predicts w (L * L∗) fun k => ends k ∧ continues k = false)
    (hL : Opens L (continues ·)) (hw : w.Settled) (hc : ends w.current.value.kind) :
    (many continues body h).Predicts w L∗ fun k => ends k ∧ continues k = false := by
  rw [← Language.one_add_self_mul_kstar_eq_kstar]
  by_cases hcont : continues w.current.value.kind = true
  · refine (hpos hcont).inr (P := (continues · = false)) (fun hK => ?_) (by simp [hcont])
    rw [one_mul]
    exact hK.mono fun _ hk => hk.2
  · rw [many_eq]
    refine (takes_current hw).predicts_bind ?_
    rw [if_neg hcont]
    exact (predicts_pure hw () ⟨hc, by simpa using hcont⟩).inl
      (fun _ => ((hL.mul_right _).mul_right _).begins) hcont

/-- A repetition that is at its first round. -/
theorem predicts_many_pos
    (hbody : ∀ {w : Window}, w.Settled → continues w.current.value.kind = true →
      body.Predicts w L ends)
    (hL : Opens L (continues ·)) (hdelimited : Delimited L ends)
    (hends : ∀ k, continues k = true → ends k) (hw : w.Settled)
    (hc : continues w.current.value.kind = true) :
    (many continues body h).Predicts w (L * L∗) fun k => ends k ∧ continues k = false := by
  induction hn : w.remaining using Nat.strong_induction_on generalizing w with
  | _ n ih =>
    subst hn
    rw [many_eq]
    refine (takes_current hw).predicts_bind ?_
    rw [if_pos hc]
    refine (hbody hw hc).bind hdelimited (nonempty_kstar L)
      (fun hK => (hL.mono hends).begins_kstar_mul (hK.mono fun _ hk => hk.1)) fun ht he => ?_
    refine predicts_many_of_pos (fun hc' => ih _ ?_ ht.settled hc' rfl) hL ht.settled he
    -- a round leaves less in front of the next
    have := h w hc () (by rw [ht.run_eq])
    rwa [ht.run_eq] at this

/-- **A repetition of predictive rounds reads the star of their language.** -/
theorem predicts_many
    (hbody : ∀ {w : Window}, w.Settled → continues w.current.value.kind = true →
      body.Predicts w L ends)
    (hL : Opens L (continues ·)) (hdelimited : Delimited L ends)
    (hends : ∀ k, continues k = true → ends k) (hw : w.Settled)
    (hc : ends w.current.value.kind) :
    (many continues body h).Predicts w L∗ fun k => ends k ∧ continues k = false :=
  predicts_many_of_pos (fun hc' => predicts_many_pos hbody hL hdelimited hends hw hc') hL hw hc

end Many

/-! ### Single tokens -/

/-- A token of any kind. -/
def sample (k : Token.Kind) : Located Token := ⟨⟨k, ""⟩, .single ⟨"", ""⟩ .origin⟩

instance {k : Token.Kind} : Nonempty (Exactly k) := ⟨⟨sample k, rfl⟩⟩

theorem predicts_expect {k : Token.Kind} (hk : k ≠ .eof) (hw : w.Settled) :
    (expect k).Predicts w (one (· = k)) fun _ => True := by
  refine (takes_current hw).predicts_bind ?_
  split
  case isTrue hc => exact predicts_advance hc (hc ▸ hk)
  case isFalse hc =>
    exact predicts_fail ⟨rfl, Ne.symm hc⟩ (nonempty_yields _) opens_one (fun _ h => h) hc

theorem predicts_ident (hw : w.Settled) : ident.Predicts w (one (· = .ident)) fun _ => True := by
  refine (takes_current hw).predicts_bind ?_
  exact (predicts_expect (by decide) hw).bind_idle fun _ => idle_pure _

end Parser

end TinyBasic
