import Eligibility.Report
import Eligibility.RuleSet
import Eligibility.Settings
/-!
# Validation of rule sets

**Order.**  The schema version, the declared domains, then every rule in
depth-first order, tree after tree; only when no rule fails, the identifiers of
rules, policies and clauses, and the clauses that rules cite.  The first fault
found rejects the whole rule set.

**Rules.**  A rule must not have the identifier of a rule above it.  It needs an
identifier, a variable, a clause and a confidence between zero and one.  A
logical rule has children and no value, a comparison a fitting value and no
children.  All comparisons on one variable have one domain: the declared one, or
that of the first comparison.

**Functions.**
* `Head.fault?`: the first check that a head fails, apart from the domain of its variable.
* `RuleSet.validate`: the first fault of a rule set, if there is any.
* `RuleSet.parse`: a raw payload, read and validated.
-/

namespace Eligibility
open Schema

/-- Why a rule set is rejected. -/
inductive RuleFault where
  | notMapping (kind : String)
  | malformed (flaws : List Flaw) (rule field : Option String) (missing : List String)
  | unsupportedVersion (version : String) (supported : List String)
  | declaredDomain (subject : String) (kind : ValueKind)
  | cycle (id : String) (path : List String)
  | missingFields (id : String) (fields : List String)
  | confidence (id : String) (value : Number)
  | logicalValue (id : String) (operator : Operator)
  | noChildren (id : String) (operator : Operator)
  | negationArity (id : String) (count : Nat)
  | comparisonChildren (id : String) (operator : Operator)
  | operandKind (id : String) (operator : Operator) (kind : ValueKind)
  | notFinite (id : String) (operator : Operator) (value : Number)
  | domain (id subject : String) (known : ValueKind) (origin : String) (kind : ValueKind)
  | duplicateRule (id : String) (count : Nat)
  | duplicatePolicy (id : String) (count : Nat)
  | duplicateClause (clause policy : String)
  | unknownClause (id clause : String)
  deriving DecidableEq

namespace RuleFault

/-- What an operator asks of its operand. -/
def demand (o : Operator) : String :=
  if o.isOrdering then "requires a numeric value"
  else if o.isMembership then "requires a set of strings"
  else "requires a scalar value"

/-- How a domain became known. -/
def originText (origin : String) : String :=
  if origin = "declared" then "declared" else "inferred from rule '" ++ origin ++ "'"

/-- A natural number in a message. -/
def count (n : Nat) : String := String.ofList (Decimal.digitsOf n)

/-- A report on a rule. -/
def onRule (message code id field : String) (details : List (String × Json)) : Report :=
  Report.schema message (some code) (some (.str id)) (some (.str field)) details

/-- A report on a rule set. -/
def onSet (message code : String) (field : Option String) (details : List (String × Json)) : Report :=
  Report.schema message (some code) none (field.map Json.str) details

/-- The report of a fault. -/
def report : RuleFault → Report
  | notMapping kind => onSet ("IR payload must be a mapping, got " ++ kind) "MALFORMED_IR" none []
  | malformed flaws rule field missing =>
      let place := match rule with
        | some id => "rule '" ++ id ++ "'"
        | none => "IR"
      let wording := (flaws.head?.map fun f => f.problem.message).getD ""
      let part := (field.filter (· ≠ "")).getD "payload"
      Report.schema ("Malformed " ++ place ++ ": " ++ part ++ ": " ++ wording)
        (some (if missing.isEmpty then "MALFORMED_IR" else "MISSING_FIELD"))
        (rule.map Json.str) (field.map Json.str)
        ([("errors", Json.arr (flaws.map Flaw.toJson))] ++
          if missing.isEmpty then [] else [("missing_fields", Json.strs missing)])
  | unsupportedVersion version supported =>
      onSet ("Unsupported schema_version '" ++ version ++ "'") "UNSUPPORTED_SCHEMA_VERSION"
        (some "schema_version") [("supported", Json.strs supported)]
  | declaredDomain subject kind =>
      onSet ("Declared domain of '" ++ subject ++ "' must be a scalar type, got " ++ kind.name)
        "TYPE_MISMATCH" (some "variable_domains") [("variable", .str subject)]
  | cycle id path =>
      onRule ("Rule '" ++ id ++ "' contains itself as a descendant") "RULE_CYCLE" id "children"
        [("path", Json.strs (path ++ [id]))]
  | missingFields id fields =>
      Report.schema
        ("Rule '" ++ (if id = "" then "<unnamed>" else id) ++ "' is missing required field(s): " ++
          String.intercalate ", " fields)
        (some "MISSING_FIELD") (if id = "" then none else some (.str id))
        (fields.head?.map Json.str) [("missing_fields", Json.strs fields)]
  | confidence id value =>
      onRule ("Rule '" ++ id ++ "' has confidence " ++ String.ofList value.written ++
        " outside [0, 1]") "INVALID_CONFIDENCE" id "confidence" []
  | logicalValue id operator =>
      onRule ("Logical rule '" ++ id ++ "' (" ++ operator.name ++ ") must not carry a value")
        "TYPE_MISMATCH" id "value" []
  | noChildren id operator =>
      onRule ("Logical rule '" ++ id ++ "' (" ++ operator.name ++ ") has no children")
        "MISSING_CHILDREN" id "children" []
  | negationArity id n =>
      onRule ("NOT rule '" ++ id ++ "' must have exactly one child, has " ++ count n)
        "INVALID_CHILDREN" id "children" []
  | comparisonChildren id operator =>
      onRule ("Comparison rule '" ++ id ++ "' (" ++ operator.name ++ ") must not have children")
        "INVALID_CHILDREN" id "children" []
  | operandKind id operator kind =>
      onRule ("Rule '" ++ id ++ "': " ++ operator.name ++ " " ++ demand operator ++ ", got " ++
        kind.name) "TYPE_MISMATCH" id "value"
        [("operator", .str operator.name), ("value_kind", .str kind.name)]
  | notFinite id operator value =>
      onRule ("Rule '" ++ id ++ "': numeric value must be finite, got " ++
        String.ofList value.written) "TYPE_MISMATCH" id "value"
        [("operator", .str operator.name), ("value_kind", .str ValueKind.numeric.name)]
  | domain id subject known origin kind =>
      onRule ("Rule '" ++ id ++ "': variable '" ++ subject ++ "' has domain " ++ known.name ++
        " (" ++ originText origin ++ "), but value is " ++ kind.name) "TYPE_MISMATCH" id "value"
        [("variable", .str subject), ("expected", .str known.name), ("got", .str kind.domain.name)]
  | duplicateRule id n =>
      onRule ("Rule id '" ++ id ++ "' is used by " ++ count n ++ " rules") "DUPLICATE_RULE_ID" id
        "rule_id" []
  | duplicatePolicy id n =>
      onSet ("Policy id '" ++ id ++ "' is declared by " ++ count n ++ " documents")
        "DUPLICATE_POLICY_ID" (some "documents") [("policy_id", .str id)]
  | duplicateClause clause policy =>
      onSet ("Clause id '" ++ clause ++ "' appears in more than one place") "DUPLICATE_CLAUSE_ID"
        (some "documents") [("clause_id", .str clause), ("policy_id", .str policy)]
  | unknownClause id clause =>
      onRule ("Rule '" ++ id ++ "' references unknown clause '" ++ clause ++ "'")
        "UNRESOLVED_CLAUSE" id "clause_reference" []

end RuleFault

namespace Head

/-- The fields that a head lacks. -/
def missing (h : Head) : List String :=
  (if h.id = "" then ["rule_id"] else []) ++
    (if h.subject = "" then ["variable"] else []) ++
    (if h.clause = "" then ["clause_reference"] else []) ++
    (if h.confidence.isNone then ["confidence"] else []) ++
    (if h.operator.isComparison && h.value.isNone then ["value"] else [])

/-- Whether a number is a confidence. -/
def isConfidence (x : Number) : Bool := (Number.le Number.zero x) && x.le Number.one

/-- Whether an operator can have an operand of a kind. -/
def fits (o : Operator) (k : ValueKind) : Bool :=
  if o.isOrdering then decide (k = .numeric)
  else if o.isMembership then decide (k = .stringSet)
  else decide (k ≠ .stringSet)

/-- The first check of the structure of a logical rule that fails. -/
def logicalFault? (h : Head) (children : Nat) : Option RuleFault :=
  if h.value.isSome then some (.logicalValue h.id h.operator)
  else if children = 0 then some (.noChildren h.id h.operator)
  else if h.operator = .not ∧ children ≠ 1 then some (.negationArity h.id children)
  else none

/-- The first check of the operand of a comparison that fails. -/
def operandFault? (h : Head) (v : Operand) : Option RuleFault :=
  if !fits h.operator v.kind then some (.operandKind h.id h.operator v.kind)
  else
    match v with
    | .number x => if x.isFinite then none else some (.notFinite h.id h.operator x)
    | _ => none

/-- The first check of the structure of a comparison that fails. -/
def comparisonFault? (h : Head) (children : Nat) : Option RuleFault :=
  if children ≠ 0 then some (.comparisonChildren h.id h.operator)
  else
    match h.value with
    | some v => operandFault? h v
    | none => some (.missingFields h.id ["value"])

/-- The first check that a head with a number of children fails, domains apart. -/
def fault? (h : Head) (children : Nat) : Option RuleFault :=
  if !h.missing.isEmpty then some (.missingFields h.id h.missing)
  else
    match h.confidence with
    | none => some (.missingFields h.id ["confidence"])
    | some x =>
        if !isConfidence x then some (.confidence h.id x)
        else if h.operator.isLogical then logicalFault? h children
        else comparisonFault? h children

end Head

namespace RuleSet

/-- The known domains of variables, each with its origin. -/
abbrev Domains := List (String × ValueKind × String)

/-- The domains after a comparison, unless its variable has another one. -/
def noteDomain (ds : Domains) (h : Head) : Except RuleFault Domains :=
  match h.value with
  | none => .ok ds
  | some v =>
      if h.operator.isLogical then .ok ds
      else
        match ds.lookup h.subject with
        | none => .ok (ds ++ [(h.subject, v.kind.domain, h.id)])
        | some (known, origin) =>
            if known = v.kind.domain then .ok ds
            else .error (.domain h.id h.subject known origin v.kind)

/-- The domains after a head below the rules of a path, unless it fails a check. -/
def checkHead (path : List String) (ds : Domains) (h : Head) (children : Nat) :
    Except RuleFault Domains :=
  if h.id ≠ "" ∧ h.id ∈ path then .error (.cycle h.id path)
  else
    match h.fault? children with
    | some f => .error f
    | none => noteDomain ds h

mutual

/-- The domains after a tree, unless a rule in it fails a check. -/
def checkTree (path : List String) (ds : Domains) : Rule → Except RuleFault Domains
  | .node h cs =>
      match checkHead path ds h cs.length with
      | .error f => .error f
      | .ok ds => checkTrees (path ++ [h.id]) ds cs

/-- The domains after several trees, unless a rule in them fails a check. -/
def checkTrees (path : List String) (ds : Domains) : List Rule → Except RuleFault Domains
  | [] => .ok ds
  | r :: rs =>
      match checkTree path ds r with
      | .error f => .error f
      | .ok ds => checkTrees path ds rs

end

/-- The first declared domain that is not scalar. -/
def domainFault? (ds : List (String × ValueKind)) : Option RuleFault :=
  (ds.find? fun d => !d.2.isScalar).map fun d => .declaredDomain d.1 d.2

/-- The first text of a list that comes more than once, with its count. -/
def repeated? (xs : List String) : Option (String × Nat) :=
  (xs.find? fun x => decide (1 < xs.count x)).map fun x => (x, xs.count x)

/-- The first clause that was seen before, with the policy that repeats it. -/
def repeatedClause? (seen : List String) : List (String × String) → Option (String × String)
  | [] => none
  | (c, p) :: r => if c ∈ seen then some (c, p) else repeatedClause? (c :: seen) r

/-- The clauses of documents, each with its policy. -/
def ownedClauses (ds : List Document) : List (String × String) :=
  ds.flatMap fun d => d.clauses.map fun c => (c.id, d.policy)

/-- The first fault in the documents, or in how rules cite their clauses. -/
def documentFault? (s : RuleSet) : Option RuleFault :=
  if s.documents.isEmpty then none
  else
    match repeated? (s.documents.map Document.policy) with
    | some (p, n) => some (.duplicatePolicy p n)
    | none =>
        match repeatedClause? [] (ownedClauses s.documents) with
        | some (c, p) => some (.duplicateClause c p)
        | none =>
            let known := (ownedClauses s.documents).map (·.1)
            (s.heads.find? fun h => decide (h.clause ∉ known)).map fun h =>
              .unknownClause h.id h.clause

/-- The first fault of a rule set. -/
def fault? (cfg : Settings) (s : RuleSet) : Option RuleFault :=
  if s.version ∉ cfg.supportedVersions then
    some (.unsupportedVersion s.version cfg.supportedVersions)
  else
    match domainFault? s.domains with
    | some f => some f
    | none =>
        match checkTrees [] (s.domains.map fun d => (d.1, d.2, "declared")) s.rules with
        | .error f => some f
        | .ok _ =>
            match repeated? (s.heads.map Head.id) with
            | some (id, n) => some (.duplicateRule id n)
            | none => documentFault? s

/-- The rule set itself, or its first fault. -/
def validate (cfg : Settings) (s : RuleSet) : Except RuleFault RuleSet :=
  match s.fault? cfg with
  | some f => .error f
  | none => .ok s

/-- The identifiers of the rules whose confidence is below the threshold. -/
def lowConfidence (cfg : Settings) (s : RuleSet) : List String :=
  (s.heads.filter fun h => h.confidence.any fun x => x.lt cfg.extractionThreshold).map Head.id

section Payloads

/-- The rule and the field that the way to a flaw leads to. -/
def locate : Json → Bool → Option Json → List Hop → Option Json
  | _, _, rule, [] => rule
  | j, inRules, rule, .index n :: r =>
      match j with
      | .arr xs =>
          match xs[n]? with
          | none => rule
          | some k =>
              let isRule := inRules && (match k with
                | .obj _ => true
                | _ => false)
              locate k inRules (if isRule then some k else rule) r
      | _ => rule
  | j, _, rule, .key k :: r =>
      locate ((j.get? k).getD .null) (k == "rules" || k == "children") rule r

/-- The last name on the way to a flaw. -/
def lastKey : List Hop → Option String
  | [] => none
  | .key k :: r => (lastKey r).or (some k)
  | .index _ :: r => lastKey r

/-- The identifier of the rule that a flaw is in, if it has a usable one. -/
def flawedRule (payload : Json) (f : Flaw) : Option String :=
  match (locate payload false none f.path).bind (·.get? "rule_id") with
  | some (.str s) => if s = "" then none else some s
  | _ => none

/-- Texts without repetition, in the order of their first appearance. -/
def distinctTexts (xs : List String) : List String :=
  xs.foldl (fun acc x => if x ∈ acc then acc else acc ++ [x]) []

/-- The names of the fields that are missing. -/
def missingNames (fs : List Flaw) : List String :=
  distinctTexts (fs.filterMap fun f => if f.problem = .missing then lastKey f.path else none)

/-- The fault of a payload that cannot be read. -/
def malformed (payload : Json) (fs : List Flaw) : RuleFault :=
  match fs with
  | [] => .malformed [] none none []
  | f :: _ => .malformed fs (flawedRule payload f) (lastKey f.path) (missingNames fs)

/-- The rule set of a raw payload. -/
def ofPayload (payload : Json) : Except RuleFault RuleSet :=
  match payload with
  | .obj _ =>
      match RuleSet.read payload with
      | .ok s => .ok s
      | .flawed fs => .error (malformed payload fs)
  | j => .error (.notMapping j.kindName)

/-- The rule set of a raw payload, validated. -/
def parse (cfg : Settings) (payload : Json) : Except RuleFault RuleSet :=
  match ofPayload payload with
  | .error f => .error f
  | .ok s => validate cfg s

end Payloads

end RuleSet
end Eligibility
