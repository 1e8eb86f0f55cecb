import Vhrn.Cli.Batches

/-!
# Wrapper flags

The flags of the wrapper come before the arguments of the agent. They are read one after the other
(`firstFlag`, `parseFlags_tokens`), and reading stops at `--` or at the first token that is not one of
them, from which on everything is the agent's. So the arguments are split in one way only
(`leading_flags`). A local grant refuses a value that begins with a dash. A domain takes
one, and then a flag of the agent is lost to the wrapper (`no_capture_iff`).
-/

namespace Vhrn.Cli

open Proxy

/-! ## Reading the flags -/

inductive FlagError
  | usage (message : Bytes)
  | input (error : InputError)
  deriving DecidableEq

/-- The flags of the wrapper, and what is forwarded to the agent. -/
structure RunFlags where
  openNet : Bool
  extraAllow : List PolicyName
  extraLocal : List LoopbackAuthority
  rest : List Bytes

/-- The values of a list between commas, each once. -/
def parseList {α : Type} [DecidableEq α] (missing empty : Bytes)
    (normalize : Bytes → Except InputError α) (s : Bytes) : Except FlagError (List α) :=
  if s.isEmpty then .error (.usage missing)
  else (s.splitOn 44).foldlM (fun values value =>
    if value.isEmpty then .error (.usage empty)
    else do return pushNew values (← (normalize value).mapError .input)) []

def parseLocalAuthorities (s : Bytes) : Except FlagError (List LoopbackAuthority) :=
  parseList (ascii "--allow --local needs a host:port")
    (ascii "--allow --local contains an empty host:port") parseAuthority s

def finalizeRunFlags (flags : RunFlags) : RunFlags :=
  { flags with
    extraAllow := flags.extraAllow.foldl pushNew []
    extraLocal := flags.extraLocal.foldl pushNew [] }

/-- A token that looks like a flag. -/
def Dashed (token : Bytes) : Prop := token.head? = some 45

instance : DecidablePred Dashed := fun token => inferInstanceAs (Decidable (token.head? = some 45))

section

variable [Host]

def parseDomains (s : Bytes) : Except FlagError (List PolicyName) :=
  parseList (ascii "--allow needs a domain") (ascii "--allow contains an empty domain")
    normalizeDomain s

def parseFlags (f : RunFlags) : List Bytes → Except FlagError RunFlags
  | [] => .ok (finalizeRunFlags f)
  | a :: args =>
    if a = ascii "--open-net" then parseFlags { f with openNet := true } args
    else if a = ascii "--allow" then
      match args with
      | [] => .error (.usage (ascii "--allow needs a domain"))
      | v :: args =>
        if v = ascii "--local" then
          match args with
          | [] => .error (.usage (ascii "--allow --local needs a host:port"))
          | v :: args =>
            if v.isEmpty ∨ Dashed v then .error (.usage (ascii "--allow --local needs a host:port"))
            else do
              let authorities ← parseLocalAuthorities v
              parseFlags { f with extraLocal := f.extraLocal ++ authorities } args
        else do
          let domains ← parseDomains v
          parseFlags { f with extraAllow := f.extraAllow ++ domains } args
    else match stripPrefix (ascii "--allow=") a with
      | some v => do
        let domains ← parseDomains v
        parseFlags { f with extraAllow := f.extraAllow ++ domains } args
      | none =>
        if a = ascii "--" then .ok (finalizeRunFlags { f with rest := args })
        else .ok (finalizeRunFlags { f with rest := a :: args })

def parseRunFlags (args : List Bytes) : Except FlagError RunFlags :=
  parseFlags ⟨false, [], [], []⟩ args

/-! ## One flag after the other -/

omit [Host] in
/-- A flag of the wrapper with its value. -/
inductive WrapperFlag
  | openNet
  | allow (value : Bytes)
  | allowEq (value : Bytes)
  | allowLocal (value : Bytes)
  deriving DecidableEq

namespace WrapperFlag

/-- The tokens of a flag. -/
def tokens : WrapperFlag → List Bytes
  | openNet => [ascii "--open-net"]
  | allow value => [ascii "--allow", value]
  | allowEq value => [ascii "--allow=" ++ value]
  | allowLocal value => [ascii "--allow", ascii "--local", value]

/-- What tells the flags apart: a domain is not `--local`, and an authority does not look like a
flag. -/
def WellFormed : WrapperFlag → Prop
  | openNet => True
  | allow value => value ≠ ascii "--local"
  | allowEq _ => True
  | allowLocal value => value ≠ [] ∧ ¬ Dashed value

/-- The token that a flag takes as its value. -/
def separateValue : WrapperFlag → Option Bytes
  | openNet => none
  | allow value => some value
  | allowEq _ => none
  | allowLocal value => some value

/-- The domains that a flag gives. -/
def domains : WrapperFlag → Except FlagError (List PolicyName)
  | openNet => .ok []
  | allow value => parseDomains value
  | allowEq value => parseDomains value
  | allowLocal _ => .ok []

/-- The loopback authorities that a flag gives. -/
def authorities : WrapperFlag → Except FlagError (List LoopbackAuthority)
  | openNet => .ok []
  | allow _ => .ok []
  | allowEq _ => .ok []
  | allowLocal value => parseLocalAuthorities value

/-- The flags after one more of them. -/
def apply (f : RunFlags) (flag : WrapperFlag) : Except FlagError RunFlags := do
  let domains ← flag.domains
  let authorities ← flag.authorities
  return { f with
    openNet := f.openNet || decide (flag = openNet)
    extraAllow := f.extraAllow ++ domains
    extraLocal := f.extraLocal ++ authorities }

omit [Host] in
theorem tokens_ne_nil (flag : WrapperFlag) : flag.tokens ≠ [] := by
  cases flag <;> exact List.cons_ne_nil _ _

omit [Host] in
theorem ascii_allowEq_append (v : Bytes) : ascii "--allow=" ++ v ≠ ascii "--open-net" ∧
    ascii "--allow=" ++ v ≠ ascii "--allow" := by
  constructor
  · intro h
    have h' := congrArg (List.take 3) h
    rw [List.take_append_of_le_length (by decide)] at h'
    exact absurd h' (by decide)
  · intro h
    have h' := congrArg List.length h
    rw [List.length_append] at h'
    have hlong : (ascii "--allow=").length = (ascii "--allow").length + 1 := by decide
    omega

omit [Host] in
/-- **Tokens begin with one flag at most.** -/
theorem tokens_append_inj {flag flag' : WrapperFlag} (h : flag.WellFormed) (h' : flag'.WellFormed)
    {rest rest' : List Bytes} (heq : flag.tokens ++ rest = flag'.tokens ++ rest') :
    flag = flag' ∧ rest = rest' := by
  have hne : ascii "--open-net" ≠ ascii "--allow" := by decide
  cases flag with
  | openNet =>
    cases flag' with
    | openNet => exact ⟨rfl, (List.cons.inj heq).2⟩
    | allow v' => exact absurd (List.cons.inj heq).1 hne
    | allowEq v' => exact absurd (List.cons.inj heq).1.symm (ascii_allowEq_append v').1
    | allowLocal v' => exact absurd (List.cons.inj heq).1 hne
  | allow v =>
    cases flag' with
    | openNet => exact absurd (List.cons.inj heq).1.symm hne
    | allow v' =>
      obtain ⟨rfl, hrest⟩ := List.cons.inj (List.cons.inj heq).2
      exact ⟨rfl, hrest⟩
    | allowEq v' => exact absurd (List.cons.inj heq).1.symm (ascii_allowEq_append v').2
    | allowLocal v' => exact absurd (List.cons.inj (List.cons.inj heq).2).1 h
  | allowEq v =>
    cases flag' with
    | openNet => exact absurd (List.cons.inj heq).1 (ascii_allowEq_append v).1
    | allow v' => exact absurd (List.cons.inj heq).1 (ascii_allowEq_append v).2
    | allowEq v' =>
      obtain ⟨hv, hrest⟩ := List.cons.inj heq
      rw [List.append_cancel_left hv]
      exact ⟨rfl, hrest⟩
    | allowLocal v' => exact absurd (List.cons.inj heq).1 (ascii_allowEq_append v).2
  | allowLocal v =>
    cases flag' with
    | openNet => exact absurd (List.cons.inj heq).1.symm hne
    | allow v' => exact absurd (List.cons.inj (List.cons.inj heq).2).1.symm h'
    | allowEq v' => exact absurd (List.cons.inj heq).1.symm (ascii_allowEq_append v').2
    | allowLocal v' =>
      obtain ⟨rfl, hrest⟩ := List.cons.inj (List.cons.inj (List.cons.inj heq).2).2
      exact ⟨rfl, hrest⟩

end WrapperFlag

open WrapperFlag

/-- **Reading takes one flag after the other.** -/
theorem parseFlags_tokens (f : RunFlags) {flag : WrapperFlag} (h : flag.WellFormed)
    (rest : List Bytes) : parseFlags f (flag.tokens ++ rest) = (do
      let f ← flag.apply f
      parseFlags f rest) := by
  have hne : ascii "--allow" ≠ ascii "--open-net" := by decide
  cases flag with
  | openNet =>
    have hstep : parseFlags f (ascii "--open-net" :: rest) =
        parseFlags { f with openNet := true } rest := by
      rw [parseFlags.eq_def]
      exact if_pos rfl
    refine hstep.trans ?_
    show _ = parseFlags _ rest
    simp
  | allow v =>
    have hstep : parseFlags f (ascii "--allow" :: v :: rest) = (do
        let domains ← parseDomains v
        parseFlags { f with extraAllow := f.extraAllow ++ domains } rest) := by
      rw [parseFlags.eq_def]
      exact (if_neg hne).trans ((if_pos rfl).trans (if_neg h))
    refine hstep.trans ?_
    simp only [apply, domains, authorities]
    cases parseDomains v with
    | error e => rfl
    | ok ds =>
      show parseFlags _ rest = parseFlags _ rest
      simp
  | allowEq v =>
    obtain ⟨hopen, hallow⟩ := ascii_allowEq_append v
    have hstep : parseFlags f ((ascii "--allow=" ++ v) :: rest) = (do
        let domains ← parseDomains v
        parseFlags { f with extraAllow := f.extraAllow ++ domains } rest) := by
      rw [parseFlags.eq_def]
      refine (if_neg hopen).trans ((if_neg hallow).trans ?_)
      rw [stripPrefix_append]
    refine hstep.trans ?_
    simp only [apply, domains, authorities]
    cases parseDomains v with
    | error e => rfl
    | ok ds =>
      show parseFlags _ rest = parseFlags _ rest
      simp
  | allowLocal v =>
    have hv : ¬ (v.isEmpty = true ∨ Dashed v) := by
      rw [List.isEmpty_iff]
      exact not_or.mpr h
    have hstep : parseFlags f (ascii "--allow" :: ascii "--local" :: v :: rest) = (do
        let authorities ← parseLocalAuthorities v
        parseFlags { f with extraLocal := f.extraLocal ++ authorities } rest) := by
      rw [parseFlags.eq_def]
      exact (if_neg hne).trans ((if_pos rfl).trans ((if_pos rfl).trans (if_neg hv)))
    refine hstep.trans ?_
    simp only [apply, domains, authorities]
    cases parseLocalAuthorities v with
    | error e => rfl
    | ok as =>
      show parseFlags _ rest = parseFlags _ rest
      simp

omit [Host] in
/-- Tokens that the wrapper leaves to the agent. -/
def Foreign (args : List Bytes) : Prop :=
  ∀ a ∈ args.head?, a ≠ ascii "--open-net" ∧ a ≠ ascii "--allow" ∧ ¬ ascii "--allow=" <+: a ∧
    a ≠ ascii "--"

omit [Host] in
/-- The token that ends the flags, where it is given. -/
def marker : Bool → List Bytes
  | true => [ascii "--"]
  | false => []

omit [Host] in
/-- What the wrapper does not read as its own: anything after `--`. -/
def Ended (marked : Bool) (rest : List Bytes) : Prop := marked = true ∨ Foreign rest

omit [Host] in
/-- No flag begins where reading has stopped. -/
theorem Ended.ne_tokens {marked : Bool} {rest : List Bytes} (h : Ended marked rest)
    (flag : WrapperFlag) (rest' : List Bytes) : marker marked ++ rest ≠ flag.tokens ++ rest' := by
  intro heq
  have hhead : (marker marked ++ rest).head? = flag.tokens.head? := by
    rw [heq, List.head?_append_of_ne_nil _ flag.tokens_ne_nil]
  cases marked with
  | true =>
    cases flag with
    | openNet => exact absurd (Option.some.inj hhead) (by decide)
    | allow v => exact absurd (Option.some.inj hhead) (by decide)
    | allowEq v =>
      have hlength := congrArg List.length (Option.some.inj hhead)
      rw [List.length_append] at hlength
      have hlong : (ascii "--").length < (ascii "--allow=").length := by decide
      omega
    | allowLocal v => exact absurd (Option.some.inj hhead) (by decide)
  | false =>
    have hforeign : Foreign rest := h.resolve_left Bool.false_ne_true
    cases flag with
    | openNet => exact (hforeign _ hhead).1 rfl
    | allow v => exact (hforeign _ hhead).2.1 rfl
    | allowEq v => exact (hforeign _ hhead).2.2.1 (List.prefix_append _ _)
    | allowLocal v => exact (hforeign _ hhead).2.1 rfl

/-- Reading stops where the flags are ended. -/
theorem parseFlags_ended {f : RunFlags} (hf : f.rest = []) {marked : Bool} {rest : List Bytes}
    (h : Ended marked rest) :
    parseFlags f (marker marked ++ rest) = .ok (finalizeRunFlags { f with rest }) := by
  have hend : stripPrefix (ascii "--allow=") (ascii "--") = none := by decide
  cases marked with
  | true =>
    show parseFlags f (ascii "--" :: rest) = _
    rw [parseFlags.eq_def]
    refine (if_neg (by decide)).trans ((if_neg (by decide)).trans ?_)
    rw [hend]
    exact if_pos rfl
  | false =>
    show parseFlags f rest = _
    rw [parseFlags.eq_def]
    cases rest with
    | nil => exact congrArg (fun rest => Except.ok (finalizeRunFlags { f with rest })) hf
    | cons a rest =>
      obtain ⟨hopen, hallow, heq, hne⟩ := h.resolve_left Bool.false_ne_true a rfl
      refine (if_neg hopen).trans ((if_neg hallow).trans ?_)
      cases hstrip : stripPrefix (ascii "--allow=") a with
      | some v =>
        obtain rfl := stripPrefix_eq_some.mp hstrip
        exact absurd (List.prefix_append _ _) heq
      | none => exact if_neg hne

/-- Where reading goes on, fails or stops. -/
theorem parseFlags_cases (args : List Bytes) :
    (∃ flag rest, flag.WellFormed ∧ args = tokens flag ++ rest) ∨
    (∃ e, ∀ f, parseFlags f args = .error e) ∨
    ∃ marked rest, Ended marked rest ∧ args = marker marked ++ rest := by
  have hne : ascii "--allow" ≠ ascii "--open-net" := by decide
  cases args with
  | nil => exact .inr (.inr ⟨false, [], .inr (fun _ h => nomatch h), rfl⟩)
  | cons a args =>
    by_cases hopen : a = ascii "--open-net"
    · subst hopen
      exact .inl ⟨.openNet, args, trivial, rfl⟩
    by_cases hallow : a = ascii "--allow"
    · subst hallow
      cases args with
      | nil =>
        refine .inr (.inl ⟨.usage (ascii "--allow needs a domain"), fun f => ?_⟩)
        rw [parseFlags.eq_def]
        exact (if_neg hne).trans (if_pos rfl)
      | cons v args =>
        by_cases hlocal : v = ascii "--local"
        · subst hlocal
          cases args with
          | nil =>
            refine .inr (.inl ⟨.usage (ascii "--allow --local needs a host:port"), fun f => ?_⟩)
            rw [parseFlags.eq_def]
            exact (if_neg hne).trans ((if_pos rfl).trans (if_pos rfl))
          | cons v args =>
            by_cases hv : v.isEmpty = true ∨ Dashed v
            · refine .inr (.inl ⟨.usage (ascii "--allow --local needs a host:port"), fun f => ?_⟩)
              rw [parseFlags.eq_def]
              exact (if_neg hne).trans ((if_pos rfl).trans ((if_pos rfl).trans (if_pos hv)))
            · rw [List.isEmpty_iff, not_or] at hv
              exact .inl ⟨.allowLocal v, args, hv, rfl⟩
        · exact .inl ⟨.allow v, args, hlocal, rfl⟩
    by_cases heq : ascii "--allow=" <+: a
    · obtain ⟨v, rfl⟩ := heq
      exact .inl ⟨.allowEq v, args, trivial, rfl⟩
    by_cases hend : a = ascii "--"
    · subst hend
      exact .inr (.inr ⟨true, args, .inl rfl, rfl⟩)
    refine .inr (.inr ⟨false, a :: args, .inr fun b hb => ?_, rfl⟩)
    obtain rfl := Option.some.inj hb
    exact ⟨hopen, hallow, heq, hend⟩

/-! ## The whole of the arguments -/

omit [Host] in
/-- The tokens of the flags, with what ends them and what follows. -/
def spell (flags : List WrapperFlag) (marked : Bool) (rest : List Bytes) : List Bytes :=
  flags.flatMap tokens ++ (marker marked ++ rest)

omit [Host] in
theorem spell_cons (flag : WrapperFlag) (flags : List WrapperFlag) (marked : Bool)
    (rest : List Bytes) : spell (flag :: flags) marked rest =
      flag.tokens ++ spell flags marked rest := by
  rw [spell, List.flatMap_cons, List.append_assoc, spell]

theorem apply_eq_ok {f g : RunFlags} {flag : WrapperFlag} : flag.apply f = .ok g ↔
    ∃ domains authorities, flag.domains = .ok domains ∧ flag.authorities = .ok authorities ∧
      g = ⟨f.openNet || decide (flag = openNet), f.extraAllow ++ domains,
        f.extraLocal ++ authorities, f.rest⟩ := by
  unfold apply
  cases flag.domains with
  | error e =>
    constructor
    · rintro ⟨⟩
    · rintro ⟨_, _, ⟨⟩, -⟩
  | ok domains =>
    cases flag.authorities with
    | error e =>
      constructor
      · rintro ⟨⟩
      · rintro ⟨_, _, -, ⟨⟩, -⟩
    | ok authorities =>
      constructor
      · rintro ⟨⟩
        exact ⟨domains, authorities, rfl, rfl, rfl⟩
      · rintro ⟨_, _, ⟨⟩, ⟨⟩, rfl⟩
        rfl

theorem rest_of_apply {f g : RunFlags} {flag : WrapperFlag} (h : flag.apply f = .ok g) :
    g.rest = f.rest := by
  obtain ⟨_, _, -, -, rfl⟩ := apply_eq_ok.mp h
  rfl

/-- What the flags give together. -/
theorem foldlM_apply_eq_ok {f g : RunFlags} {flags : List WrapperFlag}
    (h : flags.foldlM apply f = .ok g) :
    (g.openNet = true ↔ f.openNet = true ∨ openNet ∈ flags) ∧
    (∃ given, List.Forall₂ (fun flag domains => flag.domains = .ok domains) flags given ∧
      g.extraAllow = f.extraAllow ++ given.flatten) ∧
    ∃ given, List.Forall₂ (fun flag authorities => flag.authorities = .ok authorities) flags given ∧
      g.extraLocal = f.extraLocal ++ given.flatten := by
  induction flags generalizing f with
  | nil =>
    obtain rfl := Except.ok.inj h
    exact ⟨by simp, ⟨[], .nil, (List.append_nil _).symm⟩, [], .nil, (List.append_nil _).symm⟩
  | cons flag flags ih =>
    rw [List.foldlM_cons] at h
    cases happly : flag.apply f with
    | error e => rw [happly] at h; cases h
    | ok f' =>
      rw [happly] at h
      obtain ⟨domains, authorities, hdomains, hauthorities, rfl⟩ := apply_eq_ok.mp happly
      obtain ⟨hopen, ⟨given, hgiven, hallow⟩, given', hgiven', hlocal⟩ := ih h
      refine ⟨hopen.trans ?_, ⟨domains :: given, .cons hdomains hgiven, ?_⟩,
        authorities :: given', .cons hauthorities hgiven', ?_⟩
      · have hcomm : flag = .openNet ↔ .openNet = flag := eq_comm
        rw [Bool.or_eq_true, decide_eq_true_eq, List.mem_cons, or_assoc, hcomm]
      · rw [hallow, List.flatten_cons, List.append_assoc]
      · rw [hlocal, List.flatten_cons, List.append_assoc]

/-- **What is parsed of flags that are ended.** -/
theorem parseFlags_spell {f : RunFlags} (hf : f.rest = []) {flags : List WrapperFlag}
    (hflags : ∀ flag ∈ flags, flag.WellFormed) {marked : Bool} {rest : List Bytes}
    (hended : Ended marked rest) : parseFlags f (spell flags marked rest) = (do
      let f ← flags.foldlM apply f
      return finalizeRunFlags { f with rest }) := by
  induction flags generalizing f with
  | nil => exact parseFlags_ended hf hended
  | cons flag flags ih =>
    obtain ⟨hflag, hflags⟩ := List.forall_mem_cons.mp hflags
    rw [spell_cons, parseFlags_tokens f hflag, List.foldlM_cons]
    cases happly : flag.apply f with
    | error e => rfl
    | ok g => exact ih ((rest_of_apply happly).trans hf) hflags

/-- What is parsed is spelled by flags that are ended. -/
theorem exists_spell_of_parseFlags {f g : RunFlags} (hf : f.rest = []) {args : List Bytes}
    (h : parseFlags f args = .ok g) : ∃ flags marked, args = spell flags marked g.rest ∧
      (∀ flag ∈ flags, flag.WellFormed) ∧ Ended marked g.rest := by
  induction hn : args.length using Nat.strong_induction_on generalizing f args with
  | h n ih =>
    rcases parseFlags_cases args with ⟨flag, rest, hflag, rfl⟩ | ⟨e, herror⟩ | ⟨marked, rest, hended, rfl⟩
    · rw [parseFlags_tokens f hflag] at h
      cases happly : flag.apply f with
      | error e => rw [happly] at h; cases h
      | ok f' =>
        rw [happly] at h
        have hlt : rest.length < n := by
          have hpos := List.length_pos_of_ne_nil flag.tokens_ne_nil
          rw [List.length_append] at hn
          omega
        obtain ⟨flags, marked, rfl, hflags, hended⟩ :=
          ih _ hlt ((rest_of_apply happly).trans hf) h rfl
        exact ⟨flag :: flags, marked, (spell_cons ..).symm,
          List.forall_mem_cons.mpr ⟨hflag, hflags⟩, hended⟩
    · rw [herror] at h
      cases h
    · rw [parseFlags_ended hf hended] at h
      obtain rfl := Except.ok.inj h
      exact ⟨[], marked, rfl, fun _ h => (List.not_mem_nil h).elim, hended⟩

/-- How the arguments are split: flags of the wrapper with their values, possibly `--`, and the rest.
What the flags mean is settled before the rest. -/
structure Splits (args : List Bytes) (f : RunFlags) (flags : List WrapperFlag) (marked : Bool) :
    Prop where
  spelled : args = spell flags marked f.rest
  wellFormed : ∀ flag ∈ flags, flag.WellFormed
  ended : Ended marked f.rest
  openNet : f.openNet = true ↔ .openNet ∈ flags
  domains : ∃ given, List.Forall₂ (fun flag domains => flag.domains = .ok domains) flags given ∧
    f.extraAllow = given.flatten.foldl pushNew []
  authorities : ∃ given, List.Forall₂ (fun flag authorities => flag.authorities = .ok authorities)
    flags given ∧ f.extraLocal = given.flatten.foldl pushNew []
  /-- Another rest changes nothing but the rest. -/
  unaffected : ∀ rest, Ended marked rest →
    parseRunFlags (spell flags marked rest) = .ok { f with rest }

/-- The arguments are split, and no flag takes a token that looks like a flag. -/
def SplitRight (args : List Bytes) (f : RunFlags) : Prop :=
  ∃ flags marked, Splits args f flags marked ∧
    ∀ flag ∈ flags, ∀ v ∈ flag.separateValue, ¬ Dashed v

omit [Host] in
/-- After some flags, `--allow` is followed by a token that looks like a flag and is not `--local`. -/
def Captures (args : List Bytes) : Prop :=
  ∃ (flags : List WrapperFlag) (v : Bytes) (rest : List Bytes),
    args = flags.flatMap tokens ++ ascii "--allow" :: v :: rest ∧
    (∀ flag ∈ flags, flag.WellFormed) ∧ Dashed v ∧ v ≠ ascii "--local"

/-- **The arguments are split without loss.** -/
theorem exists_splits {args : List Bytes} {f : RunFlags} (h : parseRunFlags args = .ok f) :
    ∃ flags marked, Splits args f flags marked := by
  obtain ⟨flags, marked, hspell, hflags, hended⟩ := exists_spell_of_parseFlags rfl h
  rw [hspell, parseRunFlags, parseFlags_spell rfl hflags hended] at h
  cases hfold : flags.foldlM apply (⟨false, [], [], []⟩ : RunFlags) with
  | error e => rw [hfold] at h; cases h
  | ok g =>
    rw [hfold] at h
    obtain ⟨hopen, ⟨given, hgiven, hallow⟩, given', hgiven', hlocal⟩ := foldlM_apply_eq_ok hfold
    have hf : f = finalizeRunFlags { g with rest := f.rest } := (Except.ok.inj h).symm
    refine ⟨flags, marked, hspell, hflags, hended, ?_, ⟨given, hgiven, ?_⟩, ⟨given', hgiven', ?_⟩,
      fun rest hrest => ?_⟩
    · rw [hf]
      exact hopen.trans (or_iff_right Bool.false_ne_true)
    · rw [hf]
      exact congrArg (List.foldl pushNew []) hallow
    · rw [hf]
      exact congrArg (List.foldl pushNew []) hlocal
    · rw [parseRunFlags, parseFlags_spell rfl hflags hrest, hfold, hf]
      rfl

omit [Host] in
/-- **The flags of the arguments are determined.** -/
theorem leading_flags {flags flags' : List WrapperFlag} (hflags : ∀ flag ∈ flags, flag.WellFormed)
    (hflags' : ∀ flag ∈ flags', flag.WellFormed) {marked : Bool} {rest tail : List Bytes}
    (hended : Ended marked rest) (h : flags'.flatMap tokens ++ tail = spell flags marked rest) :
    flags' <+: flags := by
  induction flags' generalizing flags with
  | nil => exact List.nil_prefix
  | cons flag' flags' ih =>
    obtain ⟨hflag', hflags'⟩ := List.forall_mem_cons.mp hflags'
    rw [List.flatMap_cons, List.append_assoc] at h
    cases flags with
    | nil => exact absurd h.symm (hended.ne_tokens flag' _)
    | cons flag flags =>
      obtain ⟨hflag, hrest⟩ := List.forall_mem_cons.mp hflags
      rw [spell_cons] at h
      obtain ⟨rfl, htail⟩ := tokens_append_inj hflag' hflag h
      exact (List.prefix_cons_inj _).mpr (ih hrest hflags' htail)

omit [Host] in
/-- A captured token is the value of one of the flags. -/
theorem exists_allow_of_captures {flags : List WrapperFlag} (hflags : ∀ flag ∈ flags, flag.WellFormed)
    {marked : Bool} {rest : List Bytes} (hended : Ended marked rest)
    (h : Captures (spell flags marked rest)) : ∃ v, WrapperFlag.allow v ∈ flags ∧ Dashed v := by
  obtain ⟨before, v, tail, hargs, hbefore, hdashed, hlocal⟩ := h
  have hspell : (before ++ [WrapperFlag.allow v]).flatMap tokens ++ tail = spell flags marked rest := by
    rw [hargs, List.flatMap_append, List.append_assoc]
    rfl
  refine ⟨v, (leading_flags hflags (fun flag hflag => ?_) hended hspell).subset
    (List.mem_append_right _ (List.mem_singleton_self _)), hdashed⟩
  rcases List.mem_append.mp hflag with hflag | hflag
  · exact hbefore flag hflag
  · rw [List.mem_singleton.mp hflag]
    exact hlocal

theorem SplitRight.not_captures {args : List Bytes} {f : RunFlags} (h : SplitRight args f) :
    ¬ Captures args := by
  obtain ⟨flags, marked, hsplits, hright⟩ := h
  intro hcaptures
  rw [hsplits.spelled] at hcaptures
  obtain ⟨v, hmem, hdashed⟩ := exists_allow_of_captures hsplits.wellFormed hsplits.ended hcaptures
  exact hright _ hmem v rfl hdashed

/-- **The arguments are split without loss or capture exactly when no `--allow` of the wrapper is
followed by a token that looks like a flag.** -/
theorem no_capture_iff {args : List Bytes} {f : RunFlags} (h : parseRunFlags args = .ok f) :
    SplitRight args f ↔ ¬ Captures args := by
  refine ⟨SplitRight.not_captures, fun hcaptures => ?_⟩
  obtain ⟨flags, marked, hsplits⟩ := exists_splits h
  refine ⟨flags, marked, hsplits, fun flag hflag v hv hdashed => ?_⟩
  have hwell := hsplits.wellFormed flag hflag
  cases flag with
  | openNet => cases hv
  | allow value =>
    obtain rfl := Option.some.inj hv
    obtain ⟨before, after, rfl⟩ := List.append_of_mem hflag
    refine hcaptures ⟨before, value, after.flatMap tokens ++ (marker marked ++ f.rest), ?_,
      fun flag hb => hsplits.wellFormed flag (List.mem_append_left _ hb), hdashed, hwell⟩
    rw [hsplits.spelled, spell, List.flatMap_append, List.flatMap_cons, List.append_assoc,
      List.append_assoc]
    rfl
  | allowEq value => cases hv
  | allowLocal value =>
    obtain rfl := Option.some.inj hv
    exact hwell.2 hdashed

omit [Host] in
theorem wellFormed_allow {v : Bytes} (h : v ≠ ascii "--local") :
    ∀ flag ∈ [WrapperFlag.allow v], flag.WellFormed := by
  intro flag hflag
  rw [List.mem_singleton.mp hflag]
  exact h

/-- What is parsed where one domain is allowed. -/
theorem parseRunFlags_allow {name : PolicyName} (hempty : name.text.isEmpty = false)
    (hsplit : name.text.splitOn 44 = [name.text]) (hlocal : name.text ≠ ascii "--local") {marked : Bool}
    {rest : List Bytes} (hended : Ended marked rest) :
    parseRunFlags (spell [.allow name.text] marked rest) = .ok ⟨false, [name], [], rest⟩ := by
  have hdomains : parseDomains name.text = .ok [name] := by
    have hsome := Bool.eq_false_iff.mp hempty
    rw [parseDomains, parseList, if_neg hsome, hsplit, List.foldlM_cons, if_neg hsome, normalizeDomain_text]
    rfl
  refine (@parseFlags_spell _ ⟨false, [], [], []⟩ rfl _ (wellFormed_allow hlocal) marked _ hended).trans ?_
  have happly : (WrapperFlag.allow name.text).apply ⟨false, [], [], []⟩ =
      .ok ⟨false, [name], [], []⟩ :=
    apply_eq_ok.mpr ⟨[name], [], hdomains, rfl, rfl⟩
  rw [List.foldlM_cons, happly]
  rfl

/-- The flag `-v` of the agent, given right after `--allow`. -/
def verboseName : PolicyName := ⟨ascii "-v", by decide +kernel, by decide +kernel⟩

def verboseArgs : List Bytes := [ascii "--allow", verboseName.text, ascii "fix"]

/-- The wrapper takes the flag for a domain and forwards what is left. -/
theorem parseRunFlags_verboseArgs :
    parseRunFlags verboseArgs = .ok ⟨false, [verboseName], [], [ascii "fix"]⟩ := by
  have hforeign : Foreign [ascii "fix"] := by
    intro a ha
    obtain rfl := Option.some.inj ha
    decide
  exact @parseRunFlags_allow _ verboseName (by decide) (by decide +kernel) (by decide) false _ (.inr hforeign)

omit [Host] in
theorem captures_verboseArgs : Captures verboseArgs :=
  ⟨[], verboseName.text, [ascii "fix"], rfl, fun _ h => (List.not_mem_nil h).elim, by decide,
    by decide⟩

end

def docsName : PolicyName := ⟨ascii "docs.rs", by decide +kernel, by decide +kernel⟩

/-- A domain and, after the mark, a flag of the agent. -/
def docsArgs : List Bytes := [ascii "--allow", ascii "docs.rs", ascii "--", ascii "-v"]

theorem no_capture_docs : ∃ (_ : Host) (f : RunFlags), parseRunFlags docsArgs = .ok f ∧
    f.extraAllow = [docsName] ∧ f.rest = [ascii "-v"] ∧ SplitRight docsArgs f := by
  let host : Host :=
    { domainToAscii := fun _ => none
      keyForBytes := id
      harnesses := []
      replaceError := fun _ _ => none }
  have hparse : parseRunFlags docsArgs = .ok ⟨false, [docsName], [], [ascii "-v"]⟩ :=
    @parseRunFlags_allow _ docsName (by decide) (by decide +kernel) (by decide) true _ (.inl rfl)
  refine ⟨host, _, hparse, rfl, rfl, (no_capture_iff hparse).mpr ?_⟩
  intro hcaptures
  obtain ⟨v, hmem, hdashed⟩ := @exists_allow_of_captures [.allow docsName.text]
    (wellFormed_allow (by decide)) true [ascii "-v"] (.inl rfl) hcaptures
  obtain rfl := WrapperFlag.allow.inj (List.mem_singleton.mp hmem)
  exact absurd hdashed (by decide)

/-- A flag of the agent is lost to the wrapper. -/
theorem agent_flag_captured : ¬ ∀ [Host] (args : List Bytes) (f : RunFlags),
    parseRunFlags args = .ok f → SplitRight args f := by
  intro h
  let host : Host :=
    { domainToAscii := fun _ => none
      keyForBytes := id
      harnesses := []
      replaceError := fun _ _ => none }
  exact (h _ _ parseRunFlags_verboseArgs).not_captures captures_verboseArgs

end Vhrn.Cli
