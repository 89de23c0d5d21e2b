import RedisCvlr.Driver.Difftest
import RedisCvlr.Driver.Framing
import RedisCvlr.Library.SelfDelimiting

/-!
# Requests

A command is rendered as arguments and the arguments are written as a RESP2 array of bulk strings.
The client reads what it writes back as those arguments, and the bytes of a request determine the
command, up to the unused part of the buffer of a value.
-/

set_option autoImplicit false
set_option relaxedAutoImplicit false

namespace RedisCvlr.Driver

open RedisCvlr.Library RedisCvlr.Model

variable {K C : ℕ}

/-! ### The wire format of arguments -/

section Wire

theorem return_notMem_number (n : ℕ) : (13 : UInt8) ∉ asBytes (toString n) :=
  not_mem_asBytes (return_notMem_toString_nat n)

/-- A line with a number is self-delimiting. -/
theorem selfDelimiting_numberLine (tag : String) :
    SelfDelimiting fun n : ℕ ↦ lineBytes tag (toString n) := by
  have hinjective : Function.Injective fun n : ℕ ↦ asBytes (toString n) :=
    asBytes_injective.comp toString_nat_injective
  have hline :=
    (SelfDelimiting.terminated hinjective return_notMem_number [10]).preceded (asBytes tag)
  simpa only [lineBytes, crlf_eq, List.append_assoc] using hline

theorem argBytes_eq (arg : List UInt8) :
    argBytes arg = lineBytes "$" (toString arg.length) ++ (arg ++ crlf) := by
  simp only [argBytes, lineBytes, asBytes_append, crlf, List.append_assoc]

theorem selfDelimiting_argBytes : SelfDelimiting argBytes := by
  have hbody := (selfDelimiting_numberLine "$").lengthPrefixed crlf
  rwa [← funext argBytes_eq] at hbody

theorem cmdBytes_eq (args : List (List UInt8)) :
    cmdBytes args = lineBytes "*" (toString args.length) ++ args.flatMap argBytes := by
  have hfold : ∀ (args : List (List UInt8)) (written : List UInt8),
      args.foldl (fun written arg ↦ written ++ argBytes arg) written =
        written ++ args.flatMap argBytes := by
    intro args written
    induction args generalizing written with
    | nil => rw [List.foldl_nil, List.flatMap_nil, List.append_nil]
    | cons arg args ih => rw [List.foldl_cons, ih, List.flatMap_cons, List.append_assoc]
  rw [cmdBytes, hfold]
  simp only [lineBytes, asBytes_append, crlf]

/-- Requests are self-delimiting, whatever bytes the arguments hold. -/
theorem selfDelimiting_cmdBytes : SelfDelimiting cmdBytes := by
  have hlist := (selfDelimiting_numberLine "*").counted selfDelimiting_argBytes
  rwa [← funext cmdBytes_eq] at hlist

/-- A request is the encoding of an array of bulk strings. -/
theorem cmdBytes_eq_respBytes (args : List (List UInt8)) :
    cmdBytes args = respBytes (.array (args.map .bulk)) := by
  have hargs : args.flatMap argBytes = respListBytes (args.map .bulk) := by
    rw [respListBytes_eq, List.flatMap_def, List.map_map]
    refine congrArg List.flatten (List.map_congr_left fun arg _ ↦ ?_)
    rw [argBytes_eq, Function.comp_apply, respBytes]
  rw [cmdBytes_eq, respBytes, List.length_map, hargs]

end Wire

/-! ### The arguments of a command -/

section Render

theorem keyName_injective : Function.Injective (@keyName K) := by
  intro k k' hname
  have hnumber : toString k.val = toString k'.val := by
    rw [← String.toList_inj] at hname ⊢
    simpa only [keyName, String.toList_append, List.append_cancel_left_eq] using hname
  exact Fin.ext (toString_nat_injective hnumber)

theorem setCondArgs_injective : Function.Injective setCondArgs := by
  intro cond cond' hargs
  cases cond <;> cases cond' <;> simp [setCondArgs] at hargs ⊢

theorem expireCondArgs_injective : Function.Injective expireCondArgs := by
  intro cond cond' hargs
  cases cond <;> cases cond' <;> simp [expireCondArgs] at hargs ⊢

theorem ttlArgs_injective : Function.Injective ttlArgs := by
  intro ttl ttl' hargs
  cases ttl <;> cases ttl' <;>
    simp only [ttlArgs, List.cons.injEq, List.cons_ne_nil, asBytes_inj, String.reduceEq, true_and,
      and_true, and_false, reduceCtorEq] at hargs
  case pxAt.pxAt time time' => rw [toString_int_injective hargs]
  all_goals rfl

theorem getArgs_injective : Function.Injective getArgs := by
  intro get get' hargs
  cases get <;> cases get' <;> simp [getArgs] at hargs ⊢

/-- The flags of a SET are told apart by their tokens and their order. -/
theorem set_flags_inj {cond cond' : SetCond} {ttl ttl' : TtlArg} {get get' : Bool}
    (hargs : setCondArgs cond ++ (ttlArgs ttl ++ getArgs get) =
      setCondArgs cond' ++ (ttlArgs ttl' ++ getArgs get')) :
    cond = cond' ∧ ttl = ttl' ∧ get = get' := by
  have hcondLength : ∀ a b, (setCondArgs a).head? = (setCondArgs b).head? →
      (setCondArgs a).length = (setCondArgs b).length := by
    intro a b
    cases a <;> cases b <;> simp [setCondArgs]
  have hcondRest : ∀ ttl get cond, setCondArgs cond ≠ [] →
      (ttlArgs ttl ++ getArgs get).head? ≠ (setCondArgs cond).head? := by
    intro ttl get cond
    cases ttl <;> cases get <;> cases cond <;> simp [setCondArgs, ttlArgs, getArgs]
  have httlLength : ∀ a b, (ttlArgs a).head? = (ttlArgs b).head? →
      (ttlArgs a).length = (ttlArgs b).length := by
    intro a b
    cases a <;> cases b <;> simp [ttlArgs]
  have httlRest : ∀ get ttl, ttlArgs ttl ≠ [] → (getArgs get).head? ≠ (ttlArgs ttl).head? := by
    intro get ttl
    cases get <;> cases ttl <;> simp [ttlArgs, getArgs]
  obtain ⟨hcond, hrest⟩ := append_inj_of_head setCondArgs_injective hcondLength (hcondRest ttl get)
    (hcondRest ttl' get') hargs
  obtain ⟨httl, hget⟩ := append_inj_of_head ttlArgs_injective httlLength (httlRest get)
    (httlRest get') hrest
  exact ⟨hcond, httl, getArgs_injective hget⟩

/-- The commands that have a rendering. -/
def isRendered : Cmd K C → Bool
  | .watch _ _ => false
  | .unwatch _ => false
  | _ => true

/-- Two commands are the same up to the unused part of the buffer of a value. -/
def SameUpToSlice : Cmd K C → Cmd K C → Prop
  | .set key val cond ttl get, .set key' val' cond' ttl' get' =>
    key = key' ∧ val.asSlice = val'.asSlice ∧ cond = cond' ∧ ttl = ttl' ∧ get = get'
  | command, command' => command = command'

theorem sameUpToSlice_of_render {command command' : Cmd K C} (hcommand : isRendered command = true)
    (hcommand' : isRendered command' = true) (hargs : render command = render command') :
    SameUpToSlice command command' := by
  cases command <;> cases command' <;>
    simp only [render, List.cons_append, List.nil_append, List.cons.injEq, asBytes_inj,
      keyName_injective.eq_iff, String.reduceEq, List.cons_ne_nil, and_true, true_and, and_false,
      false_and, isRendered, Bool.false_eq_true] at hargs hcommand hcommand'
  case set.set key val cond ttl get key' val' cond' ttl' get' =>
    obtain ⟨hkey, hslice, hflags⟩ := hargs
    exact ⟨hkey, hslice, set_flags_inj hflags⟩
  case expire.expire key time cond key' time' cond' =>
    obtain ⟨rfl, htime, hcond⟩ := hargs
    rw [toString_int_injective htime, expireCondArgs_injective hcond]
    rfl
  -- the other commands have at most a key
  all_goals
    cases hargs
    rfl

/-- Commands that are the same up to the unused part of a buffer are rendered alike. -/
theorem render_of_sameUpToSlice {command command' : Cmd K C}
    (hsame : SameUpToSlice command command') : render command = render command' := by
  unfold SameUpToSlice at hsame
  split at hsame
  · obtain ⟨rfl, hslice, rfl, rfl, rfl⟩ := hsame
    rw [render, render, hslice]
  · rw [hsame]

end Render

/-! ### Requests -/

section Requests

/-- The client reads a request back as its arguments, with nothing left over; and two commands other
than those on watches are sent as the same bytes exactly when they agree in the constructor, the
key, the condition, the TTL argument, the flag, the time and the bytes in use of the value. -/
theorem requests_faithful :
    (∀ args : List (List UInt8), ArrayFits args.length → (∀ arg ∈ args, BulkFits arg.length) →
      read (cmdBytes args) = .ok (.array (args.map .bulk), [])) ∧
    ∀ command command' : Cmd K C, isRendered command = true → isRendered command' = true →
      (cmdBytes (render command) = cmdBytes (render command') ↔
        SameUpToSlice command command') := by
  refine ⟨fun args hcount hlengths ↦ ?_, fun command command' hcommand hcommand' ↦
    ⟨fun hbytes ↦ ?_, fun hsame ↦ by rw [render_of_sameUpToSlice hsame]⟩⟩
  · have hbulks : AllSendable (args.map .bulk) := by
      rw [allSendable_iff, List.forall_mem_map]
      exact hlengths
    have hsendable : (Resp.array (args.map .bulk)).Sendable :=
      ⟨by rwa [List.length_map], hbulks⟩
    have hread := read_respBytes hsendable []
    rwa [List.append_nil, ← cmdBytes_eq_respBytes] at hread
  · exact sameUpToSlice_of_render hcommand hcommand' (selfDelimiting_cmdBytes.injective hbytes)

/-- A value that reads like a flag is not taken for one. -/
theorem requests_faithful_set :
    let value : Str := ⟨fun _ ↦ 88, 2⟩
    let always : Cmd keyCount clientCount := .set 0 value .always .none false
    let present : Cmd keyCount clientCount := .set 0 value .xx .none false
    read (cmdBytes (render present)) =
        .ok (.array [.bulk (asBytes "SET"), .bulk (asBytes "k0"), .bulk [88, 88],
          .bulk (asBytes "XX")], []) ∧
      cmdBytes (render always) ≠ cmdBytes (render present) := by
  intro value always present
  obtain ⟨hread, hsame⟩ := @requests_faithful keyCount clientCount
  refine ⟨hread (render present) (by decide) (by decide), ?_⟩
  rw [Ne, hsame always present rfl rfl]
  rintro ⟨-, -, hcond, -, -⟩
  exact SetCond.noConfusion hcond

end Requests

end RedisCvlr.Driver
