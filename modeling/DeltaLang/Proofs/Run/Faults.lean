import DeltaLang.Run.Eval

/-!
# Faults of values

Operators, conditions, futures and receivers only stop a run for what their values are, never for a
name of the program.
-/

namespace DeltaLang

/-! ## Results -/

theorem exists_of_map_eq_ok {ε α β : Type} {x : Except ε α} {g : α → β} {y : β}
    (h : x.map g = .ok y) : ∃ z, x = .ok z ∧ y = g z := by
  cases x with
  | error e => cases h
  | ok z => exact ⟨z, rfl, (Except.ok.inj h).symm⟩

theorem exists_of_bind_eq_ok {ε α β : Type} {x : Except ε α} {g : α → Except ε β} {y : β}
    (h : x.bind g = .ok y) : ∃ z, x = .ok z ∧ g z = .ok y := by
  cases x with
  | error e => cases h
  | ok z => exact ⟨z, rfl, h⟩

/-- Whether the fault lies in values or in the budget, and not in the names of the program. -/
def Fault.ofValues : Fault → Bool
  | nullReceiver _ | mismatch _ _ | divisionByZero | overflow | outOfFuel _ => true
  | _ => false

/-! ## Faults of operators -/

theorem exactWord_fault {n : Int} {flt : Fault} (h : exactWord n = .error flt) :
    flt.ofValues = true := by
  unfold exactWord at h
  split at h <;> cases h
  rfl

theorem map_fault {α β : Type} {r : Except Fault α} {g : α → β} {flt : Fault}
    (h : r.map g = .error flt) : r = .error flt := by
  cases r <;> cases h
  rfl

theorem Value.asBool_fault {v : Value} {flt : Fault} (h : v.asBool = .error flt) :
    flt.ofValues = true := by
  cases v <;> cases h <;> rfl

theorem Value.asInt_fault {v : Value} {flt : Fault} (h : v.asInt = .error flt) :
    flt.ofValues = true := by
  cases v <;> cases h <;> rfl

theorem Value.asReceiver_fault {v : Value} {method : String} {flt : Fault}
    (h : v.asReceiver method = .error flt) : flt.ofValues = true := by
  cases v <;> cases h <;> rfl

theorem Value.awaited_fault {v : Value} {flt : Fault} (h : v.awaited = .error flt) :
    flt.ofValues = true := by
  cases v <;> cases h <;> rfl

theorem bind_fault {α β : Type} {r : Except Fault α} {g : α → Except Fault β} {flt : Fault}
    (h : r.bind g = .error flt) : r = .error flt ∨ ∃ v, g v = .error flt := by
  cases r with
  | error e =>
    cases h
    exact .inl rfl
  | ok v => exact .inr ⟨v, h⟩

theorem UnaryOp.apply_fault {op : UnaryOp} {v : Value} {flt : Fault}
    (h : op.apply v = .error flt) : flt.ofValues = true := by
  cases op with
  | not => exact Value.asBool_fault (map_fault h)
  | neg =>
    rcases bind_fault h with h | ⟨n, h⟩
    · exact Value.asInt_fault h
    · exact exactWord_fault (map_fault h)

namespace BinaryOp

theorem first_fault {op : BinaryOp} {a : Value} {flt : Fault} (h : op.first a = .error flt) :
    flt.ofValues = true := by
  cases op with
  | and | or => exact Value.asBool_fault (map_fault h)
  | eq | ne | add => cases h
  | _ => exact Value.asInt_fault (map_fault h)

theorem wordQuotient_fault {x y : Int} {flt : Fault} (h : wordQuotient x y = .error flt) :
    flt.ofValues = true := by
  unfold wordQuotient at h
  split at h
  · cases h
    rfl
  · exact exactWord_fault h

theorem onInts_fault {op : BinaryOp} {x y : Int} {flt : Fault}
    (h : op.onInts x y = .error flt) : flt.ofValues = true := by
  cases op with
  | lt | le | gt | ge => cases h
  | div => exact wordQuotient_fault (map_fault h)
  | mod => exact wordQuotient_fault (map_fault (map_fault h))
  | _ => exact exactWord_fault (map_fault h)

theorem both_fault {op : BinaryOp} {a b : Value} {flt : Fault} (h : op.both a b = .error flt) :
    flt.ofValues = true := by
  cases op with
  | and | or => exact Value.asBool_fault (map_fault h)
  | eq | ne => cases h
  | add =>
    simp only [both] at h
    split at h
    · exact onInts_fault h
    · cases h
    · cases h
      rfl
    · cases h
      rfl
  | _ =>
    rcases bind_fault h with h | ⟨x, h⟩
    · exact Value.asInt_fault h
    · rcases bind_fault h with h | ⟨y, h⟩
      · exact Value.asInt_fault h
      · exact onInts_fault h

end BinaryOp

end DeltaLang
