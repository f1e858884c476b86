import ImpMachine.Proofs.OperandText

/-!
# Listings read back

A listing is a line for each instruction, and reading it gives the instructions back: a line holds
no line feed, its mnemonic says how the rest is read, and names and operands are read back from
their texts. Operands have to be folded, since reading folds them, and the smallest word is read
back only where it is a whole operand (`readListing_render`).
-/

namespace ImpMachine.Linear

open List

variable {name : List Char} {c : Char} {params : List String} {op : Operand} {args : List Operand}
variable {i : Instr} {code : List Instr}

/-! ## Names -/

theorem splitName_append (rest : List Char) (hname : Lexer.IsWord name)
    (hrest : ∀ c, rest.head? = some c → Lexer.isNameChar c = false) :
    splitName (name ++ rest) = some (name, rest) := by
  obtain ⟨⟨c, hc, hstart⟩, hall⟩ := hname
  obtain ⟨source, rfl⟩ := List.head?_eq_some_iff.1 hc
  obtain ⟨htake, hdrop⟩ := takeWhile_dropWhile_append hall hrest
  rw [cons_append] at htake hdrop ⊢
  simp [splitName, hstart, htake, hdrop]

theorem isName_of_isWord (h : Lexer.IsWord name) : isName name = true := by
  have hsplit := splitName_append [] h (by simp)
  rw [append_nil] at hsplit
  simp [isName, hsplit]

theorem notMem_of_isWord (h : Lexer.IsWord name) (hc : Lexer.isNameChar c = false) : c ∉ name := by
  intro hmem
  rw [h.2 c hmem] at hc
  cases hc

theorem readParameters_blank (cs : List Char) (h : Text.isBlank c = true) (hc : c ≠ ',') :
    readParameters (Text.splitOn ',' (c :: cs)) = readParameters (Text.splitOn ',' cs) := by
  obtain ⟨piece, pieces, hpieces⟩ := exists_cons_of_ne_nil (Text.splitOn_ne_nil ',' cs)
  rw [Text.splitOn, if_neg hc, hpieces]
  simp only [readParameters, Text.trim_blank_cons _ h]

theorem readParameters_cons {name : String} (pieces : List (List Char))
    (h : Lexer.IsIdentifier name) :
    readParameters (name.toList :: pieces) = (readParameters pieces).map (name :: ·) := by
  have hsolid := (Operand.dense_of_isWord h.1).solid
  simp [readParameters, hsolid.trim_eq_self, List.isEmpty_iff, hsolid.ne_nil, isName_of_isWord h.1]

/-- The parameters of a signature are read back. -/
theorem readParameters_intercalate (h : ∀ name ∈ params, Lexer.IsIdentifier name) :
    readParameters (Text.splitOn ',' ([',', ' '].intercalate (params.map String.toList))) =
      .ok params := by
  induction params with
  | nil => rfl
  | cons name params ih =>
    obtain ⟨hname, hparams⟩ := forall_mem_cons.1 h
    have hcomma : ',' ∉ name.toList := notMem_of_isWord hname.1 (by decide)
    cases params with
    | nil =>
      rw [map_singleton, intercalate_singleton, Text.splitOn_eq_singleton hcomma,
        readParameters_cons _ hname]
      rfl
    | cons next params =>
      rw [map_cons, map_cons, intercalate_cons_cons, append_assoc,
        cons_append, Text.splitOn_append_cons _ hcomma, readParameters_cons _ hname,
        cons_append, nil_append, readParameters_blank _ (by decide) (by decide),
        ← map_cons, ih hparams]
      rfl

/-! ## The parts of a line -/

/-- A name and its value are read back. -/
theorem readBinding_eq_ok {name : String} {text : List Char} (hname : Lexer.IsIdentifier name)
    (hsolid : Text.Solid text) (hop : readOperand (' ' :: text) = .ok op) :
    readBinding (name.toList ++ ' ' :: '=' :: ' ' :: text) = .ok (name, op) := by
  have hsplit := splitName_append (' ' :: '=' :: ' ' :: text) hname.1 (by simp; decide)
  have hblank : Text.isBlank ' ' = true := by decide
  have hequals : Text.trimLeft (' ' :: '=' :: ' ' :: text) = '=' :: ' ' :: text := by
    rw [Text.trimLeft_blank_cons _ hblank]
    exact Text.trimLeft_eq_self rfl (by decide)
  have hne := hsolid.ne_nil
  obtain ⟨⟨c, hc, hc'⟩, -⟩ := hsolid
  have hvalue : Text.trimLeft (' ' :: text) = text := by
    rw [Text.trimLeft_blank_cons _ hblank, Text.trimLeft_eq_self hc hc']
  simp [readBinding, hsplit, hequals, hvalue, hne, hop, Except.map]

/-- A signature is read back. -/
theorem readSignature_eq_ok {name : String}
    (hname : Lexer.IsIdentifier name) (hparams : ∀ p ∈ params, Lexer.IsIdentifier p) :
    readSignature (name.toList ++
      '(' :: ([',', ' '].intercalate (params.map String.toList) ++ [')'])) =
      .ok (name, params) := by
  have hsplit := splitName_append
    ('(' :: ([',', ' '].intercalate (params.map String.toList) ++ [')'])) hname.1 (by simp; decide)
  simp [readSignature, hsplit, readParameters_intercalate hparams, Except.map]

theorem splitMnemonic_eq_some (i : Instr) (rest : List Char) :
    splitMnemonic ('[' :: (i.mnemonic.toList ++ ']' :: rest)) =
      some (i.mnemonic, Text.trim rest) := by
  have hmarks : i.mnemonic.toList ≠ [] ∧
      i.mnemonic.toList.all (fun c => c.isUpper || c == '_') = true := by
    cases i <;> simp only [Instr.mnemonic] <;> decide
  obtain ⟨hne, hall⟩ := hmarks
  rw [all_eq_true] at hall
  have hstop : ∀ c, (']' :: rest).head? = some c → (c.isUpper || c == '_') = false := by
    intro c hc
    cases hc
    decide
  obtain ⟨htake, hdrop⟩ := takeWhile_dropWhile_append hall hstop
  obtain ⟨c, marks, hmnemonic⟩ := exists_cons_of_ne_nil hne
  simp only [splitMnemonic, htake, hdrop]
  rw [hmnemonic]
  simp only [← hmnemonic, String.ofList_toList]

/-! ## Instructions -/

namespace Instr

/-- The names that an instruction has beside its operands. -/
def labels : Instr → List String
  | .declare name _ | .assign name _ | .macroDecl name => [name]
  | .call callee _ => [callee]
  | .funcDecl name params => name :: params
  | _ => []

/-- All names of an instruction. -/
def names (i : Instr) : List String :=
  i.labels ++ i.operands.flatMap fun op => op.reads ++ op.calls

/-- The instruction is a call. -/
def isCall : Instr → Bool
  | .call .. => true
  | _ => false

/-- What a line can hold: identifiers, and folded operands that are read back. A constant is read
back as it stands, but not as an argument. -/
structure Listable (i : Instr) : Prop where
  labels : ∀ name ∈ i.labels, Lexer.IsIdentifier name
  folded : ∀ op ∈ i.operands, op.fold = op
  operands : ∀ op ∈ i.operands, op.Readable ∨ i.isCall = false ∧ ∃ n, op = .int n

/-- The characters behind the mnemonic. -/
def argumentChars (i : Instr) : List Char :=
  (i.argumentText.getD "").toList

end Instr

namespace Instr.Listable

variable (h : i.Listable) (hop : op ∈ i.operands)

include h hop

theorem builtFrom_or_int : op.BuiltFrom Operand.IsLegible ∨ ∃ n, op = .int n :=
  (h.operands op hop).imp Operand.Readable.builtFrom And.right

theorem solid_render : Text.Solid op.render.toList :=
  Operand.solid_render (Operand.builtFrom_isExact (h.builtFrom_or_int hop))

/-- The text of the operand is read back, with blanks around it. -/
theorem readOperand_eq_ok {cs : List Char} (hcs : Text.trim cs = op.render.toList) :
    readOperand cs = .ok op := by
  rw [Operand.readOperand_render (h.builtFrom_or_int hop) hcs, h.folded op hop]

theorem readOperand_render : readOperand op.render.toList = .ok op :=
  h.readOperand_eq_ok hop (h.solid_render hop).trim_eq_self

theorem readOperand_blank_render : readOperand (' ' :: op.render.toList) = .ok op := by
  refine h.readOperand_eq_ok hop ?_
  rw [Text.trim_blank_cons _ (by decide)]
  exact (h.solid_render hop).trim_eq_self

end Instr.Listable

/-- The text of a call instruction is that of the call as an operand. -/
theorem argumentChars_call (callee : String) (args : List Operand) :
    (Instr.call callee args).argumentChars = (Operand.call callee args).render.toList := by
  rw [Operand.render, Operand.renderAll_eq_map]
  rfl

theorem foldAll_eq_self (h : ∀ a ∈ args, a.fold = a) : Operand.foldAll args = args := by
  induction args with
  | nil => rfl
  | cons a args ih =>
    obtain ⟨ha, hargs⟩ := forall_mem_cons.1 h
    rw [Operand.foldAll, ha, ih hargs]

theorem builtFrom_call {callee : String} (h : (Instr.call callee args).Listable) :
    (Operand.call callee args).BuiltFrom Operand.IsLegible := by
  refine Operand.builtFrom_call_iff.2 ⟨h.labels callee (.head _), fun a ha => ?_⟩
  rcases h.operands a ha with hreadable | ⟨hcall, -⟩
  · exact hreadable.builtFrom
  · cases hcall

/-- **The operands of a line are read back.** -/
theorem readOperands_eq_ok (h : i.Listable) : readOperands i.mnemonic i.argumentChars = .ok i := by
  cases i with
  | declare name value | assign name value =>
    have hvalue := h.readOperand_blank_render (.head _)
    have hsolid := h.solid_render (.head _)
    have hbinding := readBinding_eq_ok (h.labels name (.head _)) hsolid hvalue
    simp [readOperands, Instr.mnemonic, Instr.argumentChars, Instr.argumentText, hbinding,
      Except.map]
  | print value =>
    have hvalue := h.readOperand_blank_render (.head _)
    simp [readOperands, Instr.mnemonic, Instr.argumentChars, Instr.argumentText, dropArrow, hvalue,
      Except.map]
  | call callee args =>
    -- the call is read as one operand, so its arguments fold inside it
    have hreadable := builtFrom_call h
    have hfold : (Operand.call callee args).fold = .call callee args :=
      congrArg (Operand.call callee) (foldAll_eq_self h.folded)
    have hread := Operand.readOperand_render (.inl hreadable)
      (Operand.solid_render (Operand.builtFrom_isExact (.inl hreadable))).trim_eq_self
    rw [hfold] at hread
    simp [readOperands, Instr.mnemonic, argumentChars_call, hread]
  | funcDecl name params =>
    have hsignature := readSignature_eq_ok (h.labels name (.head _))
      fun p hp => h.labels p (.tail _ hp)
    simp [readOperands, Instr.mnemonic, Instr.argumentChars, Instr.argumentText, hsignature,
      Except.map]
  | ret value | ifBegin value | whileBegin value | expr value =>
    have hvalue := h.readOperand_render (.head _)
    simp [readOperands, Instr.mnemonic, Instr.argumentChars, Instr.argumentText, hvalue,
      Except.map]
  | macroDecl name =>
    have hname := isName_of_isWord (h.labels name (.head _)).1
    simp [readOperands, Instr.mnemonic, Instr.argumentChars, Instr.argumentText, hname]
  | endFunc | elseMark | endIf | endWhile | blockStart | blockEnd | endMacro => rfl

/-! ## Lines -/

/-- The arguments of a line neither begin nor end in a blank. -/
theorem solid_argumentChars (h : i.Listable) (harguments : i.argumentText.isSome) :
    Text.Solid i.argumentChars := by
  have hword : ∀ name ∈ i.labels, Text.Solid name.toList :=
    fun name hname => (Operand.dense_of_isWord (h.labels name hname).1).solid
  have hvalue : ∀ op ∈ i.operands, Text.Solid op.render.toList :=
    fun op hop => h.solid_render hop
  have harrow : Text.Dense ['-', '>'] := by decide
  have hparen : Text.Dense [')'] := by decide
  cases i with
  | declare name value | assign name value =>
    have hsolid := (hword name (.head _)).append [' ', '=', ' '] (hvalue value (.head _))
    simpa [Instr.argumentChars, Instr.argumentText] using hsolid
  | print value =>
    have hsolid := harrow.solid.append [' '] (hvalue value (.head _))
    simpa [Instr.argumentChars, Instr.argumentText] using hsolid
  | call callee args =>
    rw [argumentChars_call]
    exact Operand.solid_render (Operand.builtFrom_isExact (.inl (builtFrom_call h)))
  | funcDecl name params =>
    have hsolid := (hword name (.head _)).append
      ('(' :: [',', ' '].intercalate (params.map String.toList)) hparen.solid
    simpa [Instr.argumentChars, Instr.argumentText] using hsolid
  | ret value | ifBegin value | whileBegin value | expr value => exact hvalue value (.head _)
  | macroDecl name => exact hword name (.head _)
  | endFunc | elseMark | endIf | endWhile | blockStart | blockEnd | endMacro => cases harguments

/-- The arguments of a line stay on it. -/
theorem newline_notMem_argumentChars (h : i.Listable) : '\n' ∉ i.argumentChars := by
  have hword : ∀ name ∈ i.labels, '\n' ∉ name.toList :=
    fun name hname => (Operand.dense_of_isWord (h.labels name hname).1).newline_notMem
  have hvalue : ∀ op ∈ i.operands, '\n' ∉ op.render.toList := by
    intro op hop
    rcases h.builtFrom_or_int hop with hreadable | ⟨n, rfl⟩
    · exact Operand.newline_notMem_render op hreadable
    · exact (Operand.dense_wordText n).newline_notMem
  cases i with
  | declare name value | assign name value =>
    simp [Instr.argumentChars, Instr.argumentText, hword name (.head _), hvalue value (.head _)]
  | print value => simp [Instr.argumentChars, Instr.argumentText, hvalue value (.head _)]
  | call callee args =>
    rw [argumentChars_call]
    exact Operand.newline_notMem_render _ (builtFrom_call h)
  | funcDecl name params =>
    have hparams : '\n' ∉ [',', ' '].intercalate (params.map String.toList) := by
      intro hmem
      rcases Operand.mem_of_mem_intercalate hmem with hmem | ⟨piece, hpiece, hmem⟩
      · exact absurd hmem (by decide)
      · obtain ⟨param, hparam, rfl⟩ := mem_map.1 hpiece
        exact hword param (.tail _ hparam) hmem
    simp [Instr.argumentChars, Instr.argumentText, hword name (.head _), hparams]
  | ret value | ifBegin value | whileBegin value | expr value => exact hvalue value (.head _)
  | macroDecl name => exact hword name (.head _)
  | endFunc | elseMark | endIf | endWhile | blockStart | blockEnd | endMacro =>
    simp [Instr.argumentChars, Instr.argumentText]

/-- A line is the mnemonic in brackets and, behind a blank, the arguments. -/
theorem toList_render (i : Instr) :
    ∃ tail, i.render.toList = '[' :: (i.mnemonic.toList ++ ']' :: tail) ∧
      (i.argumentText.isSome ∧ tail = ' ' :: i.argumentChars ∨
        i.argumentChars = [] ∧ tail = []) := by
  unfold Instr.render Instr.argumentChars
  cases i.argumentText with
  | none => exact ⟨[], by simp, .inr (by simp)⟩
  | some text => exact ⟨' ' :: text.toList, by simp, .inl (by simp)⟩

/-- **Each line is read back as its instruction.** -/
theorem readLine_render (h : i.Listable) : readLine i.render.toList = .ok i := by
  obtain ⟨tail, hrender, htail⟩ := toList_render i
  have htrim : Text.trim tail = i.argumentChars := by
    rcases htail with ⟨hsome, rfl⟩ | ⟨hnil, rfl⟩
    · rw [Text.trim_blank_cons _ (by decide), (solid_argumentChars h hsome).trim_eq_self]
    · rw [hnil]
      rfl
  rw [hrender, readLine, splitMnemonic_eq_some, htrim]
  exact readOperands_eq_ok h

theorem solid_line (h : i.Listable) : Text.Solid i.render.toList := by
  obtain ⟨tail, hrender, htail⟩ := toList_render i
  have hopening : Text.Dense ['['] := by decide
  have hclosing : Text.Dense [']'] := by decide
  rw [hrender]
  rcases htail with ⟨hsome, rfl⟩ | ⟨-, rfl⟩
  · have hsolid := hopening.solid.append (i.mnemonic.toList ++ [']', ' '])
      (solid_argumentChars h hsome)
    simpa using hsolid
  · exact hopening.solid.append i.mnemonic.toList hclosing.solid

theorem newline_notMem_line (h : i.Listable) : '\n' ∉ i.render.toList := by
  obtain ⟨tail, hrender, htail⟩ := toList_render i
  have hmnemonic : '\n' ∉ i.mnemonic.toList := by
    cases i <;> simp only [Instr.mnemonic] <;> decide
  have htail : '\n' ∉ tail := by
    rcases htail with ⟨-, rfl⟩ | ⟨-, rfl⟩
    · simpa using newline_notMem_argumentChars h
    · simp
  rw [hrender]
  simp [hmnemonic, htail]

/-- Each line of a listing is read back. -/
theorem readLines_render (h : ∀ i ∈ code, i.Listable) (number : Nat) :
    ∃ numbered, readLines number (Text.splitOn '\n' (render code).toList) = .ok numbered ∧
      numbered.map (·.2) = code := by
  induction code generalizing number with
  | nil => exact ⟨[], rfl, rfl⟩
  | cons i code ih =>
    obtain ⟨hi, hcode⟩ := forall_mem_cons.1 h
    obtain ⟨numbered, hread, hmap⟩ := ih hcode (number + 1)
    -- the first line feed is the one behind the first instruction
    have hlines : Text.splitOn '\n' (render (i :: code)).toList =
        i.render.toList :: Text.splitOn '\n' (render code).toList := by
      rw [← Text.splitOn_append_cons _ (newline_notMem_line hi)]
      simp [render, String.toList_join]
    have hsolid := solid_line hi
    obtain ⟨tail, hrender, -⟩ := toList_render i
    refine ⟨(number, i) :: numbered, ?_, by simp [hmap]⟩
    rw [hlines, readLines, hsolid.trim_eq_self, readLine_render hi, hread]
    simp [hrender, Except.map]

/-! ## Listings -/

/-- Code that its listing shows in full: balanced, with identifiers as names and folded operands of
words and variables, the smallest word only as a whole operand and never as an argument. -/
structure Printable (code : List Instr) : Prop where
  balanced : checkNesting code = .ok ()
  names : ∀ i ∈ code, ∀ name ∈ i.names, Lexer.IsIdentifier name
  folded : ∀ i ∈ code, ∀ op ∈ i.operands, op.fold = op
  leaves : ∀ i ∈ code, ∀ op ∈ i.operands, ∀ leaf ∈ op.leaves, leaf.IsWordOrVar
  lowest : ∀ i ∈ code, ∀ op ∈ i.operands, .int Int64.minValue ∈ op.leaves →
    op = .int Int64.minValue ∧ i.isCall = false

/-- Each instruction of printable code has a line. -/
theorem Printable.listable (h : Printable code) (i : Instr) (hi : i ∈ code) : i.Listable := by
  refine ⟨fun name hname => h.names i hi name (mem_append_left _ hname), h.folded i hi,
    fun op hop => ?_⟩
  -- the smallest word is read whole; without it the text is a phrase
  by_cases hlowest : .int Int64.minValue ∈ op.leaves
  · obtain ⟨heq, hcall⟩ := h.lowest i hi op hop hlowest
    exact .inr ⟨hcall, _, heq⟩
  · refine .inl ⟨fun name hname => h.names i hi name ?_, h.leaves i hi op hop, hlowest⟩
    exact mem_append_right _ (mem_flatMap.2 ⟨op, hop, hname⟩)

/-- **A listing reads back as the code that it shows.** -/
theorem readListing_render {code : List Instr} (h : Printable code) :
    readListing (render code) = .ok code := by
  obtain ⟨numbered, hread, hmap⟩ := readLines_render h.listable 1
  rw [readListing, hread]
  simp only [hmap, h.balanced]

/-- A function with a conditional, negative constants, a call as an operand, and the smallest
word. -/
def guardedCode : List Instr :=
  [.funcDecl "f" ["a", "b"], .ifBegin (.binary .lt (.int (-3)) (.var "a")),
    .ret (.unary .not (.call "f" [.var "b", .int 7])), .endIf, .endFunc,
    .declare "x" (.int Int64.minValue), .call "f" [.var "x", .int (-1)],
    .print (.logical .and (.int 1) (.var "x"))]

theorem guardedCode_printable : Printable guardedCode where
  balanced := rfl
  names := by decide +kernel
  folded := by
    simp only [guardedCode, forall_mem_cons, Instr.operands]
    simp [Operand.fold, Operand.foldAll, Operand.int, Operand.mkBinary, Operand.mkUnary]
  leaves := by
    simp only [guardedCode, forall_mem_cons, Instr.operands]
    simp [Operand.leaves, Operand.leavesAll, Operand.int, Operand.IsWordOrVar]
  lowest := by
    simp only [guardedCode, forall_mem_cons, Instr.operands]
    have hne : Int64.minValue ≠ -3 ∧ Int64.minValue ≠ -1 ∧ Int64.minValue ≠ 1 ∧
        Int64.minValue ≠ 7 := by decide
    simp [Operand.leaves, Operand.leavesAll, Operand.int, Instr.isCall, hne]

theorem readListing_render_guarded :
    Printable guardedCode ∧ readListing (render guardedCode) = .ok guardedCode :=
  ⟨guardedCode_printable, readListing_render guardedCode_printable⟩

end ImpMachine.Linear
