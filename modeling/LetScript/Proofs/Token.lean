import LetScript.Token

/-! Consistent tokens. The kind of such a token and the sort of its value
determine each other. -/
namespace LetScript

section
variable {ε α β : Type}

@[simp] theorem ok_bind (a : α) (f : α → Except ε β) : (Except.ok a >>= f) = f a := rfl

@[simp] theorem error_bind (e : ε) (f : α → Except ε β) : (Except.error e >>= f) = .error e := rfl

@[simp] theorem bind_ok (a : α) (f : α → Except ε β) : (Except.ok a).bind f = f a := rfl

@[simp] theorem bind_error (e : ε) (f : α → Except ε β) : (Except.error e).bind f = .error e := rfl

@[simp] theorem pure_eq_ok (a : α) : (pure a : Except ε α) = .ok a := rfl

end
namespace Token

@[simp] theorem kind_raw (k : Kind) (s : String) (p : Position) : (raw k s p).kind = k := rfl
@[simp] theorem value_raw (k : Kind) (s : String) (p : Position) : (raw k s p).value = .raw s := rfl
@[simp] theorem position_raw (k : Kind) (s : String) (p : Position) :
    (raw k s p).position = p := rfl
@[simp] theorem kind_identifier (s : String) (p : Position) :
    (identifier s p).kind = .identifier := rfl
@[simp] theorem value_identifier (s : String) (p : Position) :
    (identifier s p).value = .raw s := rfl
@[simp] theorem position_identifier (s : String) (p : Position) :
    (identifier s p).position = p := rfl
@[simp] theorem kind_operator (o : Operator) (p : Position) : (operator o p).kind = .operator := rfl
@[simp] theorem value_operator (o : Operator) (p : Position) :
    (operator o p).value = .operator o := rfl
@[simp] theorem position_operator (o : Operator) (p : Position) : (operator o p).position = p := rfl
@[simp] theorem kind_builtin (f : Builtin) (p : Position) : (builtin f p).kind = .builtin := rfl
@[simp] theorem value_builtin (f : Builtin) (p : Position) : (builtin f p).value = .builtin f := rfl
@[simp] theorem position_builtin (f : Builtin) (p : Position) : (builtin f p).position = p := rfl
@[simp] theorem kind_typeName (t : TypeName) (p : Position) : (typeName t p).kind = .typeName := rfl
@[simp] theorem value_typeName (t : TypeName) (p : Position) :
    (typeName t p).value = .typeName t := rfl
@[simp] theorem position_typeName (t : TypeName) (p : Position) : (typeName t p).position = p := rfl
@[simp] theorem kind_number (x : Binary64) (p : Position) : (number x p).kind = .number := rfl
@[simp] theorem value_number (x : Binary64) (p : Position) : (number x p).value = .number x := rfl
@[simp] theorem position_number (x : Binary64) (p : Position) : (number x p).position = p := rfl
@[simp] theorem kind_string (s : String) (p : Position) : (string s p).kind = .string := rfl
@[simp] theorem value_string (s : String) (p : Position) : (string s p).value = .string s := rfl
@[simp] theorem position_string (s : String) (p : Position) : (string s p).position = p := rfl
@[simp] theorem kind_boolean (b : Bool) (p : Position) : (boolean b p).kind = .boolean := rfl
@[simp] theorem value_boolean (b : Bool) (p : Position) : (boolean b p).value = .boolean b := rfl
@[simp] theorem position_boolean (b : Bool) (p : Position) : (boolean b p).position = p := rfl

/-- A token of a kind whose value is just its text. -/
structure IsRaw (t : Token) (k : Kind) : Prop where
  kind : t.kind = k
  value : ∃ s, t.value = .raw s

theorem isRaw_raw (k : Kind) (s : String) (p : Position) : (raw k s p).IsRaw k := ⟨rfl, s, rfl⟩

namespace Consistent

variable {t : Token}

/-- The value of a consistent token tells its kind, unless it is just a text. -/
theorem kind_eq (h : t.Consistent) :
    match t.value with
    | .operator _ => t.kind = .operator
    | .builtin _ => t.kind = .builtin
    | .typeName _ => t.kind = .typeName
    | .boolean _ => t.kind = .boolean
    | .string _ => t.kind = .string
    | .number _ => t.kind = .number
    | .raw _ => t.kind ∉ [.operator, .builtin, .typeName, .boolean, .string, .number] := by
  obtain ⟨k, v, p⟩ := t
  cases v <;> cases k <;> first | rfl | exact h.elim | simp

/-- A token of one of the other kinds has its text as value. -/
theorem isRaw (h : t.Consistent) {k : Kind} (ht : t.kind = k)
    (hk : k ∉ [.operator, .builtin, .typeName, .boolean, .string, .number]) : t.IsRaw k := by
  subst ht
  obtain ⟨k, v, p⟩ := t
  have hv := h.kind_eq
  cases v with
  | raw s => exact ⟨rfl, s, rfl⟩
  | _ => simp_all

theorem eq_identifier (h : t.Consistent) (hk : t.kind = .identifier) :
    ∃ s p, t = .identifier s p := by
  obtain ⟨k, v, p⟩ := t
  have hv := h.kind_eq
  cases v <;> simp_all [identifier, raw]

theorem eq_typeName (h : t.Consistent) (hk : t.kind = .typeName) : ∃ ty p, t = .typeName ty p := by
  obtain ⟨k, v, p⟩ := t
  have hv := h.kind_eq
  cases v <;> simp_all [typeName]

theorem eq_operator (h : t.Consistent) {o : Operator} (ho : t.isOperator o = true) :
    ∃ p, t = .operator o p := by
  obtain ⟨k, v, p⟩ := t
  have hv := h.kind_eq
  cases v <;> simp_all [operator, isOperator]

theorem eq_builtin (h : t.Consistent) {f : Builtin} (hf : t.value = .builtin f) :
    ∃ p, t = .builtin f p := by
  obtain ⟨k, v, p⟩ := t
  have hv := h.kind_eq
  cases v <;> simp_all [builtin]

theorem value_of_isTrivia (h : t.Consistent) (ht : t.isTrivia) : ∃ s, t.value = .raw s := by
  simp only [Token.isTrivia, Kind.isTrivia, Bool.or_eq_true, beq_iff_eq] at ht
  rcases ht with ht | ht
  · exact (h.isRaw ht (by decide)).value
  · exact (h.isRaw ht (by decide)).value

theorem isTrivia_of_isBuiltin (h : t.Consistent) {f : Builtin} (hf : t.isBuiltin f) :
    t.isTrivia = false := by
  have hk := h.kind_eq
  rw [of_decide_eq_true hf] at hk
  rw [Token.isTrivia, hk]
  rfl

end Consistent
end Token
end LetScript
