import C380.Lib.OptionList

/-!
# The command line (`Assignment02/argparser.c`, `notapp.c`)

`parse_args` finds out which role `notapp` is started in, and with which arguments.

* `parseArgs` is the code, with the text that it prints; `none` is a read past the end of `argv`.
  `strtof` is a parameter, and so is the type of its values.
* `readOptions` is the loop of `parse_args_server` without its index: `serverLoop_eq`.
* `readOptions_known` reads known options, `exists_options` says where they end, and
  `foldl_setOption` what they set.
* `parseArgs_spec`: **`parse_args` accepts exactly its command language**.
-/

namespace C380.Notapp

open OptionList

/-- `enum role`. -/
inductive Role
  | unknown
  | server
  | observerClient
  | userClient
  deriving DecidableEq

/-- `notapp_args`. `logfile` may be `NULL`. -/
@[ext] structure NotappArgs (F : Type) where
  role : Role
  interval : F
  sport : String
  logfile : Option String
  saddr : String
  fileordir : String

/-- `MIN_ARG_COUNT`. -/
def minArgCount : ℕ := 3

section Code

variable {F : Type} [OfScientific F]

/-- `init_notapp_args`. -/
def initNotappArgs : NotappArgs F := ⟨.unknown, 5.0, "0", none, "127.0.0.1", "randomfile.txt"⟩

/-- The loop of `parse_args_server` and what comes after it. -/
def serverLoop (strtof : String → F) (argc : ℕ) (argv : List String) (index : ℕ)
    (intervalFlag : Bool) (ret : NotappArgs F) : Option (NotappArgs F × String) :=
  if index < argc then
    if index + 1 = argc then some (ret, "Invalid argument format\n")
    else do
      let flag ← argv[index]?
      if flag = "-t" then
        let value ← argv[index + 1]?
        serverLoop strtof argc argv (index + 2) true { ret with interval := strtof value }
      else if flag = "-p" then
        let value ← argv[index + 1]?
        serverLoop strtof argc argv (index + 2) intervalFlag { ret with sport := value }
      else if flag = "-l" then
        let value ← argv[index + 1]?
        serverLoop strtof argc argv (index + 2) intervalFlag { ret with logfile := some value }
      else some (ret, "Unknown flag detected: " ++ flag ++ "\n")
  else if intervalFlag = false then some (ret, "Required flag not present\n")
  else some ({ ret with role := .server }, "")
  termination_by argc - index

/-- `parse_args_server`. -/
def parseArgsServer (strtof : String → F) (argc : ℕ) (argv : List String) :
    Option (NotappArgs F × String) :=
  if argc < 3 then some (initNotappArgs, "Not enough args\n")
  else serverLoop strtof argc argv 2 false initNotappArgs

/-- `parse_args_observer_client`. -/
def parseArgsObserverClient (argc : ℕ) (argv : List String) : Option (NotappArgs F × String) :=
  if argc ≠ 5 then some (initNotappArgs, "Not enough args\n")
  else do
    let saddr ← argv[2]?
    let sport ← argv[3]?
    let fileordir ← argv[4]?
    some ({ initNotappArgs with role := .observerClient, saddr, sport, fileordir }, "")

/-- `parse_args_user_client`. -/
def parseArgsUserClient (argc : ℕ) (argv : List String) : Option (NotappArgs F × String) :=
  if argc ≠ 4 then some (initNotappArgs, "Not equal args in user client\n")
  else do
    let saddr ← argv[2]?
    let sport ← argv[3]?
    some ({ initNotappArgs with role := .userClient, saddr, sport }, "")

/-- `parse_args`. -/
def parseArgs (strtof : String → F) (argc : ℕ) (argv : List String) :
    Option (NotappArgs F × String) :=
  if argc < minArgCount then some (initNotappArgs, "")
  else do
    let flagRole ← argv[1]?
    if flagRole = "-s" then parseArgsServer strtof argc argv
    else if flagRole = "-o" then parseArgsObserverClient argc argv
    else if flagRole = "-u" then parseArgsUserClient argc argv
    else some (initNotappArgs, "")

/-- What `main` goes on to call. -/
inductive Started (F : Type)
  | doServer (arg : NotappArgs F)
  | doObserverClient (arg : NotappArgs F)
  | doUserClient (arg : NotappArgs F)

/-- `main`, up to the call that it makes, and what it has printed. -/
def notappMain (strtof : String → F) (argc : ℕ) (argv : List String) :
    Option (Option (Started F) × String) := do
  let (arg, text) ← parseArgs strtof argc argv
  match arg.role with
  | .server => some (some (.doServer arg), text)
  | .observerClient => some (some (.doObserverClient arg), text)
  | .userClient => some (some (.doUserClient arg), text)
  | .unknown => some (none, text ++ "Unknown client type\n")

/-! ## The command language -/

/-- The options of a server. -/
def serverFlags : List String := ["-t", "-p", "-l"]

/-- The arguments of a server that is given these options. -/
def serverLine (program : String) (ps : List (String × String)) : List String :=
  program :: "-s" :: flatten ps

/-- Known options, the required one among them. -/
structure ServerOptions (ps : List (String × String)) : Prop where
  known : ∀ p ∈ ps, p.1 ∈ serverFlags
  interval : ∃ p ∈ ps, p.1 = "-t"

/-- What the options of a server come to: for each the last value, and the default if there is
none. -/
def serverArgs (strtof : String → F) (ps : List (String × String)) : NotappArgs F :=
  { (initNotappArgs : NotappArgs F) with
    role := .server
    interval := ((lastValue "-t" ps).map strtof).getD 5.0
    sport := (lastValue "-p" ps).getD "0"
    logfile := lastValue "-l" ps }

end Code

/-! ## The loop without its index -/

section Loop

variable {F : Type}

/-- A known option. -/
def setOption (strtof : String → F) (ret : NotappArgs F) (p : String × String) : NotappArgs F :=
  if p.1 = "-t" then { ret with interval := strtof p.2 }
  else if p.1 = "-p" then { ret with sport := p.2 }
  else if p.1 = "-l" then { ret with logfile := some p.2 }
  else ret

/-- The loop on the arguments that are left. -/
def readOptions (strtof : String → F) :
    List String → Bool → NotappArgs F → NotappArgs F × String
  | [], intervalFlag, ret =>
    if intervalFlag = false then (ret, "Required flag not present\n")
    else ({ ret with role := .server }, "")
  | [_], _, ret => (ret, "Invalid argument format\n")
  | flag :: value :: rest, intervalFlag, ret =>
    if flag ∈ serverFlags then
      readOptions strtof rest (intervalFlag || flag == "-t") (setOption strtof ret (flag, value))
    else (ret, "Unknown flag detected: " ++ flag ++ "\n")

/-- **The loop reads the arguments two at a time**, and none past the last. -/
theorem serverLoop_eq (strtof : String → F) : ∀ (rest before : List String) (intervalFlag : Bool)
    (ret : NotappArgs F), serverLoop strtof (before ++ rest).length (before ++ rest) before.length
      intervalFlag ret = some (readOptions strtof rest intervalFlag ret)
  | [], before, intervalFlag, ret => by
    rw [serverLoop, if_neg (by simp), readOptions]
    split <;> rfl
  | [x], before, intervalFlag, ret => by
    rw [serverLoop, if_pos (by simp), if_pos (by simp), readOptions]
  | flag :: value :: rest, before, intervalFlag, ret => by
    have hflag : (before ++ flag :: value :: rest)[before.length]? = some flag := by simp
    have hvalue : (before ++ flag :: value :: rest)[before.length + 1]? = some value := by simp
    have ih : ∀ intervalFlag ret, serverLoop strtof (before ++ flag :: value :: rest).length
        (before ++ flag :: value :: rest) (before.length + 2) intervalFlag ret =
        some (readOptions strtof rest intervalFlag ret) := by
      intro intervalFlag ret
      have h := serverLoop_eq strtof rest (before ++ [flag, value]) intervalFlag ret
      rw [List.append_assoc] at h
      rw [← h]
      simp
    rw [serverLoop, if_pos (by simp), if_neg (by simp), readOptions]
    simp only [hflag, hvalue, Option.bind_eq_bind, Option.bind_some, ih]
    by_cases ht : flag = "-t"
    · subst ht
      simp [serverFlags, setOption]
    by_cases hp : flag = "-p"
    · subst hp
      simp [serverFlags, setOption]
    by_cases hl : flag = "-l"
    · subst hl
      simp [serverFlags, setOption]
    simp [serverFlags, ht, hp, hl]

variable {strtof : String → F} {ps : List (String × String)}

/-- Known options are read one after the other. -/
theorem readOptions_known (hknown : ∀ p ∈ ps, p.1 ∈ serverFlags) (rest : List String)
    (intervalFlag : Bool) (ret : NotappArgs F) :
    readOptions strtof (flatten ps ++ rest) intervalFlag ret =
      readOptions strtof rest (intervalFlag || (lastValue "-t" ps).isSome)
        (ps.foldl (setOption strtof) ret) := by
  induction ps generalizing intervalFlag ret with
  | nil => rw [lastValue_nil, Option.isSome_none, Bool.or_false]; rfl
  | cons p ps ih =>
    have hflag : (intervalFlag || (lastValue "-t" (p :: ps)).isSome) =
        (intervalFlag || p.1 == "-t" || (lastValue "-t" ps).isSome) := by
      rw [Bool.eq_iff_iff]
      simp only [Bool.or_eq_true, lastValue_isSome, List.mem_cons, exists_eq_or_imp, beq_iff_eq,
        or_assoc]
    rw [flatten_cons, List.cons_append, List.cons_append, readOptions,
      if_pos (hknown p List.mem_cons_self), ih fun q hq => hknown q (List.mem_cons_of_mem p hq),
      hflag, List.foldl_cons]

/-- The options up to the first that is unknown or has no value. -/
theorem exists_options : ∀ rest : List String, ∃ ps tail, rest = flatten ps ++ tail ∧
    (∀ p ∈ ps, p.1 ∈ serverFlags) ∧
    (tail = [] ∨ (∃ x, tail = [x]) ∨ ∃ x y l, tail = x :: y :: l ∧ x ∉ serverFlags)
  | [] => ⟨[], [], rfl, List.forall_mem_nil _, .inl rfl⟩
  | [x] => ⟨[], [x], rfl, List.forall_mem_nil _, .inr (.inl ⟨x, rfl⟩)⟩
  | flag :: value :: rest => by
    by_cases hflag : flag ∈ serverFlags
    · obtain ⟨ps, tail, rfl, hknown, htail⟩ := exists_options rest
      exact ⟨(flag, value) :: ps, tail, rfl, List.forall_mem_cons.mpr ⟨hflag, hknown⟩, htail⟩
    · exact ⟨[], flag :: value :: rest, rfl, List.forall_mem_nil _,
        .inr (.inr ⟨flag, value, rest, rfl, hflag⟩)⟩

theorem setOption_interval (ret : NotappArgs F) (p : String × String) :
    (setOption strtof ret p).interval = if p.1 = "-t" then strtof p.2 else ret.interval := by
  unfold setOption
  split_ifs <;> rfl

theorem setOption_sport (ret : NotappArgs F) (p : String × String) :
    (setOption strtof ret p).sport = if p.1 = "-p" then p.2 else ret.sport := by
  unfold setOption
  by_cases ht : p.1 = "-t"
  · rw [if_pos ht, if_neg (by simp [ht])]
  · rw [if_neg ht]
    split_ifs <;> rfl

theorem setOption_logfile (ret : NotappArgs F) (p : String × String) :
    (setOption strtof ret p).logfile = if p.1 = "-l" then some p.2 else ret.logfile := by
  unfold setOption
  by_cases ht : p.1 = "-t"
  · rw [if_pos ht, if_neg (by simp [ht])]
  by_cases hp : p.1 = "-p"
  · rw [if_neg ht, if_pos hp, if_neg (by simp [hp])]
  · rw [if_neg ht, if_neg hp]
    split_ifs <;> rfl

/-- The fields that no option sets. -/
theorem setOption_kept (ret : NotappArgs F) (p : String × String) :
    ((setOption strtof ret p).role, (setOption strtof ret p).saddr,
      (setOption strtof ret p).fileordir) = (ret.role, ret.saddr, ret.fileordir) := by
  unfold setOption
  split_ifs <;> rfl

/-- **What the options set.** -/
theorem foldl_setOption (ret : NotappArgs F) : ps.foldl (setOption strtof) ret =
    { ret with
      interval := ((lastValue "-t" ps).map strtof).getD ret.interval
      sport := (lastValue "-p" ps).getD ret.sport
      logfile := (lastValue "-l" ps).or ret.logfile } := by
  have hinterval := foldl_field (g := NotappArgs.interval) (@setOption_interval F strtof) ps ret
  have hsport := foldl_field (g := NotappArgs.sport) (f := id) (@setOption_sport F strtof) ps ret
  have hlogfile := foldl_field (g := NotappArgs.logfile) (@setOption_logfile F strtof) ps ret
  have hkept := foldl_kept (g := fun r => (r.role, r.saddr, r.fileordir))
    (@setOption_kept F strtof) ps ret
  have hor : ((lastValue "-l" ps).map some).getD ret.logfile =
      (lastValue "-l" ps).or ret.logfile := by
    cases lastValue "-l" ps <;> rfl
  rw [Option.map_id] at hsport
  rw [hor] at hlogfile
  simp only [Prod.mk.injEq] at hkept
  obtain ⟨hrole, hsaddr, hfileordir⟩ := hkept
  exact NotappArgs.ext hrole hinterval hsport hlogfile hsaddr hfileordir

end Loop

/-! ## Acceptance -/

section Acceptance

variable {F : Type} [OfScientific F]

/-- The command language, with what its lines mean. -/
inductive Accepts (strtof : String → F) : List String → NotappArgs F → Prop
  | server (program : String) {ps : List (String × String)} (h : ServerOptions ps) :
    Accepts strtof (serverLine program ps) (serverArgs strtof ps)
  | observerClient (program saddr sport fileordir : String) :
    Accepts strtof [program, "-o", saddr, sport, fileordir]
      { initNotappArgs with role := .observerClient, saddr, sport, fileordir }
  | userClient (program saddr sport : String) :
    Accepts strtof [program, "-u", saddr, sport]
      { initNotappArgs with role := .userClient, saddr, sport }

variable {strtof : String → F} {argv : List String}

theorem readOptions_server {ps : List (String × String)} (h : ServerOptions ps) :
    readOptions strtof (flatten ps) false initNotappArgs = (serverArgs strtof ps, "") := by
  have hread := @readOptions_known F strtof ps h.known [] false initNotappArgs
  rw [List.append_nil, lastValue_isSome.mpr h.interval, foldl_setOption] at hread
  rw [hread, readOptions, if_neg (by simp)]
  simp [serverArgs, initNotappArgs]

example (strtof : String → F) : readOptions strtof
    ["-t", "7.5", "-p", "111.111.111.111", "-l", "random.txt"] false initNotappArgs =
    (⟨.server, strtof "7.5", "111.111.111.111", some "random.txt", "127.0.0.1",
      "randomfile.txt"⟩, "") := rfl

/-- Options that are partly processed leave the role as it was. -/
theorem readOptions_unknown {rest : List String}
    (h : ¬ ∃ ps, rest = flatten ps ∧ ServerOptions ps) :
    (readOptions strtof rest false initNotappArgs).1.role = .unknown := by
  obtain ⟨ps, tail, rfl, hknown, htail⟩ := exists_options rest
  rw [readOptions_known hknown, foldl_setOption]
  rcases htail with rfl | ⟨x, rfl⟩ | ⟨x, y, l, rfl, hx⟩
  · have hnone : (false || (lastValue "-t" ps).isSome) = false := by
      rw [Bool.false_or, Bool.eq_false_iff]
      exact fun hsome => h ⟨ps, List.append_nil _, ⟨hknown, lastValue_isSome.mp hsome⟩⟩
    rw [hnone, readOptions, if_pos rfl]
    rfl
  · rfl
  · rw [readOptions, if_neg hx]
    rfl

theorem parseArgs_server (program x : String) (rest : List String) :
    parseArgs strtof (program :: "-s" :: x :: rest).length (program :: "-s" :: x :: rest) =
      some (readOptions strtof (x :: rest) false initNotappArgs) := by
  have hargc : ¬ (program :: "-s" :: x :: rest).length < 3 := by simp
  have hloop := serverLoop_eq strtof (x :: rest) [program, "-s"] false initNotappArgs
  rw [parseArgs, minArgCount, if_neg hargc]
  simp only [List.getElem?_cons_succ, List.getElem?_cons_zero, Option.bind_eq_bind,
    Option.bind_some, if_true]
  rw [parseArgsServer, if_neg hargc]
  exact hloop

/-- What the language accepts, the code accepts. -/
theorem Accepts.parseArgs_eq {args : NotappArgs F} (h : Accepts strtof argv args) :
    parseArgs strtof argv.length argv = some (args, "") := by
  cases h with
  | @server program ps h =>
    rw [← readOptions_server h]
    cases ps with
    | nil => obtain ⟨p, hp, -⟩ := h.interval; cases hp
    | cons p ps => exact parseArgs_server program p.1 (p.2 :: flatten ps)
  | observerClient program saddr sport fileordir => rfl
  | userClient program saddr sport => rfl

/-- What it does not accept starts nothing. -/
theorem parseArgs_unknown (h : ¬ ∃ args, Accepts strtof argv args) :
    ∃ r, parseArgs strtof argv.length argv = some r ∧ r.1.role = .unknown := by
  match argv, h with
  | [], _ => exact ⟨_, rfl, rfl⟩
  | [_], _ => exact ⟨_, rfl, rfl⟩
  | [_, _], _ => exact ⟨_, rfl, rfl⟩
  | program :: flagRole :: x :: rest, h =>
    by_cases hs : flagRole = "-s"
    · subst hs
      refine ⟨_, parseArgs_server program x rest, readOptions_unknown ?_⟩
      rintro ⟨ps, hps, hopt⟩
      have haccepts : Accepts strtof (serverLine program ps) (serverArgs strtof ps) :=
        .server program hopt
      rw [serverLine, ← hps] at haccepts
      exact h ⟨_, haccepts⟩
    by_cases ho : flagRole = "-o"
    · subst ho
      match rest, h with
      | [sport, fileordir], h => exact absurd ⟨_, .observerClient program x sport fileordir⟩ h
      | [], _ => exact ⟨_, rfl, rfl⟩
      | [_], _ => exact ⟨_, rfl, rfl⟩
      | _ :: _ :: _ :: _, _ => exact ⟨_, rfl, rfl⟩
    by_cases hu : flagRole = "-u"
    · subst hu
      match rest, h with
      | [sport], h => exact absurd ⟨_, .userClient program x sport⟩ h
      | [], _ => exact ⟨_, rfl, rfl⟩
      | _ :: _ :: _, _ => exact ⟨_, rfl, rfl⟩
    refine ⟨(initNotappArgs, ""), ?_, rfl⟩
    simp [parseArgs, minArgCount, hs, ho, hu]

theorem accepts_of_observerClient (hrole : argv[1]? = some "-o") (hlength : argv.length = 5) :
    ∃ args, Accepts strtof argv args := by
  match argv, hlength with
  | [program, flagRole, saddr, sport, fileordir], _ =>
    cases hrole
    exact ⟨_, .observerClient program saddr sport fileordir⟩

theorem accepts_of_userClient (hrole : argv[1]? = some "-u") (hlength : argv.length = 4) :
    ∃ args, Accepts strtof argv args := by
  match argv, hlength with
  | [program, flagRole, saddr, sport], _ =>
    cases hrole
    exact ⟨_, .userClient program saddr sport⟩

/-- The role that a line is accepted in can be read off it. -/
theorem Accepts.role_iff {args : NotappArgs F} (h : Accepts strtof argv args) :
    (args.role = .server ↔ ∃ program ps, argv = serverLine program ps ∧ ServerOptions ps) ∧
      (args.role = .observerClient ↔ argv[1]? = some "-o" ∧ argv.length = 5) ∧
      (args.role = .userClient ↔ argv[1]? = some "-u" ∧ argv.length = 4) := by
  cases h with
  | @server program ps h =>
    simp only [serverArgs, serverLine]
    simpa using ⟨ps, rfl, h⟩
  | observerClient program saddr sport fileordir => simp [serverLine]
  | userClient program saddr sport => simp [serverLine]

/-- `main` starts nothing in the role `UNKNOWN`, and only then. -/
theorem notappMain_none_iff {argc : ℕ} {r : NotappArgs F × String}
    (h : parseArgs strtof argc argv = some r) :
    notappMain strtof argc argv = some (none, r.2 ++ "Unknown client type\n") ↔
      r.1.role = .unknown := by
  obtain ⟨⟨role, interval, sport, logfile, saddr, fileordir⟩, text⟩ := r
  simp only [notappMain, h, Option.bind_eq_bind, Option.bind_some]
  cases role <;> simp

theorem ServerOptions.rearranged {ps qs : List (String × String)} (h : ServerOptions ps)
    (hqs : Rearranged ps qs) : ServerOptions qs := by
  obtain ⟨p, hp, hflag⟩ := h.interval
  exact ⟨fun q hq => h.known q (hqs.perm.mem_iff.mpr hq), p, hqs.perm.mem_iff.mp hp, hflag⟩

theorem serverArgs_rearranged {ps qs : List (String × String)} (h : Rearranged ps qs) :
    serverArgs strtof ps = serverArgs strtof qs := by
  simp only [serverArgs, h.lastValue_eq]

/-- **`parse_args` accepts exactly its command language**: each role has its lines, and without one
of them the role is `UNKNOWN` and `main` starts nothing. A line that is accepted gives each field
the last value for it, or the default, in whatever order options with distinct flags stand. Nothing
past the end of `argv` is read. -/
theorem parseArgs_spec (strtof : String → F) (argv : List String) :
    ∃ r, parseArgs strtof argv.length argv = some r ∧
      (r.1.role = .server ↔ ∃ program ps, argv = serverLine program ps ∧ ServerOptions ps) ∧
      (r.1.role = .observerClient ↔ argv[1]? = some "-o" ∧ argv.length = 5) ∧
      (r.1.role = .userClient ↔ argv[1]? = some "-u" ∧ argv.length = 4) ∧
      (r.1.role = .unknown ↔
        notappMain strtof argv.length argv = some (none, r.2 ++ "Unknown client type\n")) ∧
      (∀ args, Accepts strtof argv args → r = (args, "")) ∧
      (∀ program ps qs, argv = serverLine program ps → ServerOptions ps →
        Rearranged ps qs ∨ (ps.map Prod.fst).Nodup ∧ ps.Perm qs →
        parseArgs strtof (serverLine program qs).length (serverLine program qs) = some r) := by
  by_cases haccepts : ∃ args, Accepts strtof argv args
  · obtain ⟨args, hargs⟩ := haccepts
    obtain ⟨hserver, hobserver, huser⟩ := hargs.role_iff
    refine ⟨(args, ""), hargs.parseArgs_eq, hserver, hobserver, huser,
      (notappMain_none_iff hargs.parseArgs_eq).symm, fun args' hargs' => ?_, ?_⟩
    · exact Option.some.inj (hargs.parseArgs_eq.symm.trans hargs'.parseArgs_eq)
    · rintro program ps qs rfl hopt hperm
      have hqs : Rearranged ps qs :=
        hperm.elim id fun ⟨hnodup, hperm⟩ => rearranged_of_perm hperm hnodup
      have hline := (@Accepts.server F _ strtof program ps hopt).parseArgs_eq
      rw [← Option.some.inj (hline.symm.trans hargs.parseArgs_eq), serverArgs_rearranged hqs]
      exact (Accepts.server program (hopt.rearranged hqs)).parseArgs_eq
  · obtain ⟨r, hr, hrole⟩ := parseArgs_unknown haccepts
    have hnot : ∀ role, role ≠ Role.unknown → ∀ p : Prop,
        (p → ∃ args, Accepts strtof argv args) → (r.1.role = role ↔ p) := fun role hne p hp =>
      iff_of_false (fun h => hne (h.symm.trans hrole)) fun h => haccepts (hp h)
    refine ⟨r, hr, hnot _ (by decide) _ ?_, hnot _ (by decide) _ ?_, hnot _ (by decide) _ ?_,
      (notappMain_none_iff hr).symm, fun args hargs => absurd ⟨args, hargs⟩ haccepts, ?_⟩
    · rintro ⟨program, ps, rfl, hopt⟩
      exact ⟨_, .server program hopt⟩
    · exact fun h => accepts_of_observerClient h.1 h.2
    · exact fun h => accepts_of_userClient h.1 h.2
    · rintro program ps qs rfl hopt -
      exact absurd ⟨_, .server program hopt⟩ haccepts

end Acceptance

end C380.Notapp
