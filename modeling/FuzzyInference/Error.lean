import FuzzyInference.Text.Blank

/-!
What can go wrong, as causes, and the one text of each cause.
-/
namespace FuzzyInference

/-- The words that structure a rule. -/
inductive Keyword where
  | ifWord
  | isWord
  | thenWord
  | andWord
  | orWord
  | withWord
  deriving DecidableEq

namespace Keyword

def text : Keyword → String
  | ifWord => "if"
  | isWord => "is"
  | thenWord => "then"
  | andWord => "and"
  | orWord => "or"
  | withWord => "with"

end Keyword

/-- The two clauses of a rule. -/
inductive Clause where
  | antecedent
  | consequent
  deriving DecidableEq

def Clause.text : Clause → String
  | .antecedent => "antecedent"
  | .consequent => "consequent"

/-- Why a text is no rule. -/
inductive RuleTextError where
  | missingKeyword (word : Keyword)
  | missingWeight
  | invalidWeight (word : String)
  | trailingWords (words : String)
  | emptyClause (clause : Clause)
  deriving DecidableEq

def RuleTextError.message : RuleTextError → String
  | .missingKeyword word => s!"缺少关键字 '{word.text}'"
  | .missingWeight => "'with' 之后缺少权重"
  | .invalidWeight word => s!"无效的权重: '{word}'"
  | .trailingWords words => s!"权重之后存在多余的记号: '{words}'"
  | .emptyClause clause => s!"{clause.text} 子句为空"

/-- What a reader expected where it found something else. -/
inductive Expected where
  | openParen
  | argumentList
  | outputVariable
  | isWord
  | andWord
  | term
  deriving DecidableEq

def Expected.text : Expected → String
  | .openParen => "'('"
  | .argumentList => "function argument list"
  | .outputVariable => "output variable"
  | .isWord => "'is'"
  | .andWord => "'and'"
  | .term => "term"

/-- Why a text is no formula, antecedent or consequent. -/
inductive ParseError where
  | unbalancedParentheses (text : String)
  | arityMismatch (element : String) (expected found : Nat)
  | unknownOperator (symbol : String)
  | missingOperand (operator : String)
  | unexpectedToken (expected : Expected) (found : String)
  | incompleteProposition (text : String)
  | malformedExpression (text : String)
  deriving DecidableEq

def ParseError.message : ParseError → String
  | .unbalancedParentheses text => s!"括号不匹配: {text}"
  | .arityMismatch element expected found =>
    s!"函数 '{element}' 需要 {expected} 个参数, 实际 {found} 个"
  | .unknownOperator symbol => s!"未知的操作符: '{symbol}'"
  | .missingOperand operator => s!"操作符 '{operator}' 缺少操作数"
  | .unexpectedToken expected found => s!"期望 {expected.text}, 实际为 '{found}'"
  | .incompleteProposition text => s!"命题不完整: '{text}'"
  | .malformedExpression text => s!"无效的表达式: '{text}'"

/-- What a name was taken to refer to. -/
inductive ReferenceKind where
  | variableName
  | termName
  deriving DecidableEq

def ReferenceKind.text : ReferenceKind → String
  | .variableName => "variable"
  | .termName => "term"

/-- What is used before it has been loaded. -/
inductive Unloaded where
  | clause (clause : Clause) (text : String)
  | rule (text : String)
  deriving DecidableEq

def Unloaded.text : Unloaded → String
  | .clause which text => s!"{which.text} '{text}'"
  | .rule text => text

/-- The combining operators that an antecedent may need. -/
inductive Combinator where
  | conjunction
  | disjunction
  deriving DecidableEq

def Combinator.text : Combinator → String
  | .conjunction => "conjunction"
  | .disjunction => "disjunction"

/-- A setting that cannot be used. Numbers are held as they are written. -/
inductive InvalidSetting where
  | tolerance (value : String)
  | parameter (activation : String) (value : String)
  | unexpectedParameters (activation : String) (values : String)
  | tooManyParameters (activation : String) (values : String)
  deriving DecidableEq

def InvalidSetting.message : InvalidSetting → String
  | .tolerance value => s!"容差必须为有限正数, 实际为 {value}"
  | .parameter activation value => s!"{activation} 的参数无效: '{value}'"
  | .unexpectedParameters activation values => s!"{activation} 不接受参数: '{values}'"
  | .tooManyParameters activation values => s!"{activation} 的参数过多: '{values}'"

inductive Error where
  | ruleText (cause : RuleTextError)
  | parse (cause : ParseError)
  | unresolved (kind : ReferenceKind) (name : String)
  | notLoaded (what : Unloaded)
  | missingCombinator (which : Combinator)
  | notRegistered (registry : String) (key : String)
  | invalidSetting (cause : InvalidSetting)
  deriving DecidableEq

def Error.message : Error → String
  | .ruleText cause => s!"规则语法错误: {cause.message}"
  | .parse cause => s!"表达式解析失败: {cause.message}"
  | .unresolved kind name => s!"未解析的引用: {kind.text} '{name}'"
  | .notLoaded what => s!"尚未加载: {what.text}"
  | .missingCombinator which => s!"缺少组合算子: {which.text}"
  | .notRegistered registry key => s!"{registry} 中未注册键 '{key}'"
  | .invalidSetting cause => s!"无效的配置: {cause.message}"

/-- A rule of a block that could not be read or loaded. -/
structure RuleFailure where
  index : Nat
  rule : String
  cause : Error
  deriving DecidableEq

def RuleFailure.message (f : RuleFailure) : String :=
  s!"[{f.index}] '{f.rule}': {f.cause.message}"

/-- Why a block cannot be built or loaded: one of its components, or some of its rules. -/
inductive BlockError where
  | component (cause : Error)
  | rules (block : String) (failures : List RuleFailure)
  deriving DecidableEq

/-- The messages of the rules, in the order of the failures. -/
def BlockError.messages : BlockError → List String
  | .component _ => []
  | .rules _ failures => failures.map RuleFailure.message

def BlockError.message (e : BlockError) : String :=
  match e with
  | .component cause => cause.message
  | .rules block _ => s!"规则块 '{block}' 加载失败: " ++ "; ".intercalate e.messages

/-! ### Results -/

/-- A sequence that gives a result has one of its first part. -/
theorem exists_of_bind_eq_ok {ε β γ : Type} {x : Except ε β} {f : β → Except ε γ} {c : γ}
    (h : (do f (← x)) = .ok c) : ∃ b, x = .ok b ∧ f b = .ok c := by
  cases x with
  | error cause => cases h
  | ok b => exact ⟨b, rfl, h⟩

/-- A sequence that fails does so in its first part or after it. -/
theorem cause_of_bind_eq_error {ε β γ : Type} {x : Except ε β} {f : β → Except ε γ} {cause : ε}
    (h : (do f (← x)) = .error cause) : x = .error cause ∨ ∃ b, f b = .error cause := by
  cases x with
  | error first => exact .inl (congrArg Except.error (Except.error.inj h))
  | ok b => exact .inr ⟨b, h⟩

theorem exists_of_map_eq_ok {ε β γ : Type} {x : Except ε β} {f : β → γ} {c : γ}
    (h : x.map f = .ok c) : ∃ b, x = .ok b ∧ f b = c := by
  cases x with
  | error cause => cases h
  | ok b => exact ⟨b, rfl, Except.ok.inj h⟩

theorem eq_ok_of_mapError {ε δ β : Type} {x : Except ε β} {f : ε → δ} {b : β}
    (h : x.mapError f = .ok b) : x = .ok b := by
  cases x with
  | error cause => cases h
  | ok b' => exact congrArg Except.ok (Except.ok.inj h)

end FuzzyInference
