import Mathlib.Data.Set.List
import TinyBasic.Proofs.Token.Line
import TinyBasic.Proofs.Token.Resuming
import TinyBasic.Proofs.Translation.Identifiers
import TinyBasic.Proofs.Translation.Lookahead

/-!
# A listing of tokens can be read back

A run that lists tokens writes a line for each of them up to the end of the text or to the first
error (`Session.Listed`).  Every line is printable, so the line feeds of a listing are the ends of
its lines, and `Token.ofListing?` reads the tokens back, line by line.
-/

namespace TinyBasic

namespace Token

/-- The tokens that a listing stands for. -/
def ofListing? (text : String) : Option (List Token) := (CText.lines text).dropLast.mapM ofLine?

theorem mapM_ofLine?_line (ts : List Token) : (ts.map line).mapM ofLine? = some ts := by
  induction ts with
  | nil => rfl
  | cons t ts ih => simp [ofLine?_line, ih]

/-- **A listing is read back as its tokens.** -/
theorem ofListing?_unlines (ts : List Token) :
    ofListing? (unlines (ts.map line)) = some ts := by
  have hlines : ∀ l ∈ ts.map line, '\n' ∉ l.toList := by
    rintro _ hl
    obtain ⟨t, -, rfl⟩ := List.mem_map.1 hl
    exact t.newline_notMem_line
  rw [ofListing?, CText.lines_unlines hlines, List.dropLast_concat, mapM_ofLine?_line]

end Token

/-- **What a lexer gives up to the end or the first error**: tokens, of which the last is the end of
the text, or tokens and the error. -/
theorem Lexer.exists_items_eq (l : Lexer) :
    ∃ (ts : List (Located Token)) (later : List Item), l.items = ts.map .ok ++ later ∧
      ((later = [] ∧ ∃ e, ts.getLast? = some e ∧ e.value.kind = .eof) ∨
        ∃ e, later = [.error e]) := by
  obtain ⟨-, -, front, last, hitems, hfront, hlast⟩ := l.items_cases
  obtain ⟨ts, rfl⟩ : front ∈ Set.range (List.map Except.ok) := by
    rw [Set.range_list_map]
    intro i hi
    obtain ⟨t, rfl, -⟩ := hfront i hi
    exact ⟨t, rfl⟩
  rcases hlast with ⟨e, rfl, he⟩ | ⟨e, rfl⟩
  · exact ⟨ts ++ [e], [], by simp [hitems], .inl ⟨rfl, e, by simp, he⟩⟩
  · exact ⟨ts, [.error e], hitems, .inr ⟨e, rfl⟩⟩

namespace Session

variable {s s' : Source} {ts : List (Located Token)} {later : List Lexer.Item}

/-- Only tokens get a line. -/
theorem tokenLines_append (h : later = [] ∨ ∃ e, later = [.error e]) :
    tokenLines (ts.map .ok ++ later) = unlines (ts.map (·.value.line)) := by
  have hlater : tokenLines later = "" := by
    rcases h with rfl | ⟨e, rfl⟩ <;> rfl
  induction ts with
  | nil => exact hlater
  | cons t ts ih =>
    rw [List.map_cons, List.map_cons, unlines_cons, ← ih]
    simp [tokenLines]

theorem listTokens_stdout (s : Source) :
    (listTokens s).stdout = tokenLines (Lexer.ofSource s).items := by
  unfold listTokens
  dsimp only
  split <;> rfl

/-- What a run that lists the tokens of a source shows of the tokens `ts` before the first error. -/
structure Listed (s : Source) (ts : List (Located Token)) : Prop where
  /-- They are all tokens up to the end of the text, or up to the first error. -/
  items : ((Lexer.ofSource s).items = ts.map .ok ∧ ∃ e, ts.getLast? = some e ∧ e.value.kind = .eof) ∨
    ∃ e, (Lexer.ofSource s).items = ts.map .ok ++ [.error e]
  /-- There is one line for each of them. -/
  stdout : (listTokens s).stdout = unlines (ts.map (·.value.line))
  /-- The lines are printable, and so have no line feed. -/
  printable : ∀ t ∈ ts, ∀ c ∈ t.value.line.toList, Text.isPrintable c = true
  /-- The listing tells the kind and the text of each of them. -/
  decoded : Token.ofListing? (listTokens s).stdout = some (ts.map (·.value))
  /-- The run succeeds exactly if there is no error. -/
  succeeds_iff : (listTokens s).code = 0 ↔ ∀ e, .error e ∉ (Lexer.ofSource s).items

theorem exists_listed (s : Source) : ∃ ts, Listed s ts := by
  obtain ⟨ts, later, hitems, hcases⟩ := (Lexer.ofSource s).exists_items_eq
  have hstdout : (listTokens s).stdout = unlines (ts.map (·.value.line)) := by
    rw [listTokens_stdout, hitems]
    exact tokenLines_append (hcases.imp_left And.left)
  have hlines : ts.map (·.value.line) = (ts.map (·.value)).map Token.line := by simp
  have hdecoded : Token.ofListing? (listTokens s).stdout = some (ts.map (·.value)) := by
    rw [hstdout, hlines, Token.ofListing?_unlines]
  refine ⟨ts, ?_, hstdout, fun t _ => t.value.isPrintable_of_mem_line, hdecoded, ?_⟩
  · rcases hcases with ⟨rfl, hlast⟩ | ⟨e, rfl⟩
    · exact .inl ⟨by rw [hitems, List.append_nil], hlast⟩
    · exact .inr ⟨e, hitems⟩
  · rcases hcases with ⟨rfl, -⟩ | ⟨e, rfl⟩
    · rw [List.append_nil] at hitems
      rw [listTokens_of_ok hitems, hitems]
      simp
    · rw [listTokens_of_error hitems, hitems]
      simp

/-- A run that succeeds shows all tokens. -/
theorem Listed.map_content (h : Listed s ts) (hcode : (listTokens s).code = 0) :
    (Lexer.ofSource s).items.map Lexer.content = (ts.map (·.value)).map .ok := by
  rcases h.items with ⟨hitems, -⟩ | ⟨e, hitems⟩
  · rw [hitems, List.map_map, List.map_map]
    rfl
  · exact absurd (hitems ▸ by simp) (h.succeeds_iff.1 hcode e)

/-- A run that lists tokens reads the source and changes nothing. -/
theorem run_ofOptions_tokens {t : FileTree} {o : Options} {body : String} (htokens : o.tokens = true)
    (hread : t.read ⟨o.file⟩ = .ok body) :
    (ofOptions o).run t = (listTokens ⟨o.file, body⟩, t) := by
  simp only [ofOptions, run, hread, ofSource, htokens, if_true]

/-- **A listing of tokens can be read back.**  A run that lists the tokens of a source, whatever
reads its command line, shows a line for each token up to the end of the text or to the first error,
and succeeds exactly if there is no error.  The lines are printable, and from them the kind and the
text of each token can be read back, whatever characters the text has.  So two runs that succeed
show the same exactly if the sources are made of the same tokens. -/
theorem listing_is_decodable :
    (∀ (reader : OptionReader) (args : List String) (t : FileTree) (o : Options) (body : String),
      reader.read args = .run o → o.tokens = true → t.read ⟨o.file⟩ = .ok body →
        (reader.session args).run t = (listTokens ⟨o.file, body⟩, t)) ∧
    (∀ s : Source, ∃ ts, Listed s ts) ∧
    ∀ s s' : Source, (listTokens s).code = 0 → (listTokens s').code = 0 →
      ((listTokens s).stdout = (listTokens s').stdout ↔
        (Lexer.ofSource s).items.map Lexer.content =
          (Lexer.ofSource s').items.map Lexer.content) := by
  refine ⟨?_, exists_listed, ?_⟩
  · intro reader args t o body hargs htokens hread
    rw [OptionReader.session_of_run hargs]
    exact run_ofOptions_tokens htokens hread
  · intro s s' hcode hcode'
    obtain ⟨ts, hts⟩ := exists_listed s
    obtain ⟨ts', hts'⟩ := exists_listed s'
    rw [hts.map_content hcode, hts'.map_content hcode']
    constructor
    · intro hsame
      have hvalues := hts.decoded
      rw [hsame, hts'.decoded] at hvalues
      rw [Option.some.inj hvalues]
    · intro hsame
      have hvalues := List.map_injective_iff.2 (fun _ _ => Except.ok.inj) hsame
      have hlines := congrArg (List.map Token.line) hvalues
      rw [List.map_map, List.map_map] at hlines
      exact hts.stdout.trans ((congrArg unlines hlines).trans hts'.stdout.symm)

/-! ### Two files of the same tokens -/

/-- A string literal with a separator, an apostrophe and a character that is not ASCII, written
twice with other blanks around it. -/
def quoted : FileTree :=
  ⟨[], [(["tight.bas"], .file "PRINT \"it's: é\"".toUTF8),
    (["loose.bas"], .file "  PRINT  \"it's: é\" # so".toUTF8)]⟩

/-- What is listed for both of them. -/
def quotedListing : String :=
  "PRINT: PRINT\nit\\'s: \\u\x7be9\x7d: STRING\n\\n: NEWLINE\n: EOF\n"

theorem listing_is_decodable_quoted :
    (Invocation.ofArguments ["--tokens", "tight.bas"] = .run ⟨"tight.bas", none, true, 0⟩ ∧
      quoted.read ⟨"tight.bas"⟩ = .ok "PRINT \"it's: é\"" ∧
      (ofArguments ["--tokens", "tight.bas"]).run quoted =
        (listTokens ⟨"tight.bas", "PRINT \"it's: é\""⟩, quoted)) ∧
    (listTokens ⟨"tight.bas", "PRINT \"it's: é\""⟩).code = 0 ∧
    (listTokens ⟨"loose.bas", "  PRINT  \"it's: é\" # so"⟩).code = 0 ∧
    (listTokens ⟨"tight.bas", "PRINT \"it's: é\""⟩).stdout = quotedListing ∧
    (listTokens ⟨"loose.bas", "  PRINT  \"it's: é\" # so"⟩).stdout = quotedListing ∧
    Token.ofListing? quotedListing =
      some [⟨.keyword .print, "PRINT"⟩, ⟨.string, "it's: é"⟩, ⟨.newline, "\n"⟩, ⟨.eof, ""⟩] ∧
    (Lexer.ofSource ⟨"tight.bas", "PRINT \"it's: é\""⟩).items.map Lexer.content =
      (Lexer.ofSource ⟨"loose.bas", "  PRINT  \"it's: é\" # so"⟩).items.map Lexer.content := by
  obtain ⟨hrun, -, hsame⟩ := listing_is_decodable
  have hargs : Invocation.ofArguments ["--tokens", "tight.bas"] =
      .run ⟨"tight.bas", none, true, 0⟩ := by decide +kernel
  have hread : quoted.read ⟨"tight.bas"⟩ = .ok "PRINT \"it's: é\"" := by decide +kernel
  have hcode : (listTokens ⟨"tight.bas", "PRINT \"it's: é\""⟩).code = 0 := by decide +kernel
  have hcode' : (listTokens ⟨"loose.bas", "  PRINT  \"it's: é\" # so"⟩).code = 0 := by
    decide +kernel
  have hstdout : (listTokens ⟨"tight.bas", "PRINT \"it's: é\""⟩).stdout = quotedListing := by
    decide +kernel
  have hstdout' : (listTokens ⟨"loose.bas", "  PRINT  \"it's: é\" # so"⟩).stdout =
      quotedListing := by decide +kernel
  have hdecoded : Token.ofListing? quotedListing =
      some [⟨.keyword .print, "PRINT"⟩, ⟨.string, "it's: é"⟩, ⟨.newline, "\n"⟩, ⟨.eof, ""⟩] := by
    decide +kernel
  exact ⟨⟨hargs, hread, hrun .standard ["--tokens", "tight.bas"] _ _ _ hargs rfl hread⟩, hcode,
    hcode', hstdout, hstdout', hdecoded, (hsame _ _ hcode hcode').1 (hstdout.trans hstdout'.symm)⟩

end Session

end TinyBasic
