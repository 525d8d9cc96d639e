import EgressPolicy.Json.Value

/-!
Equality of JSON values is decidable.

Two values are compared constructor by constructor; arrays and objects are compared in order, which
for normal values is the equality of what they hold.
-/

namespace EgressPolicy.Json

mutual

def decEq : (v w : Json) → Decidable (v = w)
  | null, w =>
    match w with
    | null => isTrue rfl
    | bool _ | number _ | string _ | array _ | object _ => isFalse nofun
  | bool b, w =>
    match w with
    | bool c => decidable_of_iff (b = c) (by simp)
    | null | number _ | string _ | array _ | object _ => isFalse nofun
  | number n, w =>
    match w with
    | number m => decidable_of_iff (n = m) (by simp)
    | null | bool _ | string _ | array _ | object _ => isFalse nofun
  | string s, w =>
    match w with
    | string t => decidable_of_iff (s = t) (by simp)
    | null | bool _ | number _ | array _ | object _ => isFalse nofun
  | array items, w =>
    match w with
    | array others =>
      match decEqItems items others with
      | isTrue h => isTrue (congrArg array h)
      | isFalse h => isFalse fun e => h (array.inj e)
    | null | bool _ | number _ | string _ | object _ => isFalse nofun
  | object members, w =>
    match w with
    | object others =>
      match decEqMembers members others with
      | isTrue h => isTrue (congrArg object h)
      | isFalse h => isFalse fun e => h (object.inj e)
    | null | bool _ | number _ | string _ | array _ => isFalse nofun

def decEqItems : (vs ws : List Json) → Decidable (vs = ws)
  | [], ws =>
    match ws with
    | [] => isTrue rfl
    | _ :: _ => isFalse nofun
  | v :: vs, ws =>
    match ws with
    | [] => isFalse nofun
    | w :: ws =>
      match decEq v w, decEqItems vs ws with
      | isTrue h, isTrue h' => isTrue (by rw [h, h'])
      | isFalse h, _ => isFalse fun e => h (List.cons.inj e).1
      | _, isFalse h => isFalse fun e => h (List.cons.inj e).2

def decEqMembers : (ms ns : List (String × Json)) → Decidable (ms = ns)
  | [], ns =>
    match ns with
    | [] => isTrue rfl
    | _ :: _ => isFalse nofun
  | (k, v) :: ms, ns =>
    match ns with
    | [] => isFalse nofun
    | (l, w) :: ns =>
      match decEq v w, decEqMembers ms ns with
      | isTrue h, isTrue h' => decidable_of_iff (k = l) (by simp [h, h'])
      | isFalse h, _ => isFalse fun e => h (Prod.mk.inj (List.cons.inj e).1).2
      | _, isFalse h => isFalse fun e => h (List.cons.inj e).2

end

instance : DecidableEq Json := decEq

end EgressPolicy.Json
