/-! # The operators and functions of expressions

Every operator, aggregate and built-in function has one name in the algebra; each table below is
read in both directions.
-/

namespace QueryAlgebra.Surface

/-- The operators between two operands. -/
inductive BinaryOp where
  | and | or | eq | ne | lt | le | gt | ge | add | sub | mul | div
deriving DecidableEq, Inhabited

namespace BinaryOp

/-- All binary operators. -/
def all : List BinaryOp := [.and, .or, .eq, .ne, .lt, .le, .gt, .ge, .add, .sub, .mul, .div]

/-- The name in the algebra. -/
def name : BinaryOp → String
  | .and => "&&"
  | .or => "||"
  | .eq => "="
  | .ne => "!="
  | .lt => "<"
  | .le => "<="
  | .gt => ">"
  | .ge => ">="
  | .add => "+"
  | .sub => "-"
  | .mul => "*"
  | .div => "/"

/-- The operator of a name. -/
def ofName? (name : String) : Option BinaryOp := all.find? (·.name == name)

end BinaryOp

/-- The operators before one operand. Minus and plus are named apart from the binary ones. -/
inductive UnaryOp where
  | not | neg | pos
deriving DecidableEq, Inhabited

namespace UnaryOp

/-- All unary operators. -/
def all : List UnaryOp := [.not, .neg, .pos]

/-- The name in the algebra. -/
def name : UnaryOp → String
  | .not => "!"
  | .neg => "UMINUS"
  | .pos => "UPLUS"

/-- The operator of a name. -/
def ofName? (name : String) : Option UnaryOp := all.find? (·.name == name)

end UnaryOp

/-- The aggregate functions. -/
inductive AggregateFunction where
  | count | sum | avg | min | max | groupConcat | sample
deriving DecidableEq, Inhabited

namespace AggregateFunction

/-- All aggregate functions. -/
def all : List AggregateFunction := [.count, .sum, .avg, .min, .max, .groupConcat, .sample]

/-- The name in the algebra. -/
def name : AggregateFunction → String
  | .count => "count"
  | .sum => "sum"
  | .avg => "avg"
  | .min => "min"
  | .max => "max"
  | .groupConcat => "group_concat"
  | .sample => "sample"

/-- The aggregate of a name. -/
def ofName? (name : String) : Option AggregateFunction := all.find? (·.name == name)

end AggregateFunction

/-- The built-in functions. -/
inductive Builtin where
  | bound | isIri | isUri | isBlank | isLiteral | isNumeric | str | lang | datatype | iri | uri
  | bnode | strLang | strDt | strlen | substr | ucase | lcase | strStarts | strEnds | contains
  | strBefore | strAfter | encodeForUri | concat | langMatches | regex | replace | abs | round
  | ceil | floor | rand | now | year | month | day | hours | minutes | seconds | timezone | tz
  | md5 | sha1 | sha256 | sha384 | sha512 | sameTerm | uuid | strUuid | triple | subject
  | predicate | object | isTriple | ifElse | coalesce
deriving DecidableEq, Inhabited

namespace Builtin

/-- All built-in functions. -/
def all : List Builtin :=
  [.bound, .isIri, .isUri, .isBlank, .isLiteral, .isNumeric, .str, .lang, .datatype, .iri, .uri,
    .bnode, .strLang, .strDt, .strlen, .substr, .ucase, .lcase, .strStarts, .strEnds, .contains,
    .strBefore, .strAfter, .encodeForUri, .concat, .langMatches, .regex, .replace, .abs, .round,
    .ceil, .floor, .rand, .now, .year, .month, .day, .hours, .minutes, .seconds, .timezone, .tz,
    .md5, .sha1, .sha256, .sha384, .sha512, .sameTerm, .uuid, .strUuid, .triple, .subject,
    .predicate, .object, .isTriple, .ifElse, .coalesce]

/-- The name in the algebra. -/
def name : Builtin → String
  | .bound => "bound"
  | .isIri => "isiri"
  | .isUri => "isuri"
  | .isBlank => "isblank"
  | .isLiteral => "isliteral"
  | .isNumeric => "isnumeric"
  | .str => "str"
  | .lang => "lang"
  | .datatype => "datatype"
  | .iri => "iri"
  | .uri => "uri"
  | .bnode => "bnode"
  | .strLang => "strlang"
  | .strDt => "strdt"
  | .strlen => "strlen"
  | .substr => "substr"
  | .ucase => "ucase"
  | .lcase => "lcase"
  | .strStarts => "strstarts"
  | .strEnds => "strends"
  | .contains => "contains"
  | .strBefore => "strbefore"
  | .strAfter => "strafter"
  | .encodeForUri => "encode_for_uri"
  | .concat => "concat"
  | .langMatches => "langmatches"
  | .regex => "regex"
  | .replace => "replace"
  | .abs => "abs"
  | .round => "round"
  | .ceil => "ceil"
  | .floor => "floor"
  | .rand => "rand"
  | .now => "now"
  | .year => "year"
  | .month => "month"
  | .day => "day"
  | .hours => "hours"
  | .minutes => "minutes"
  | .seconds => "seconds"
  | .timezone => "timezone"
  | .tz => "tz"
  | .md5 => "md5"
  | .sha1 => "sha1"
  | .sha256 => "sha256"
  | .sha384 => "sha384"
  | .sha512 => "sha512"
  | .sameTerm => "sameterm"
  | .uuid => "uuid"
  | .strUuid => "struuid"
  | .triple => "triple"
  | .subject => "subject"
  | .predicate => "predicate"
  | .object => "object"
  | .isTriple => "istriple"
  | .ifElse => "if"
  | .coalesce => "coalesce"

/-- The function of a name. -/
def ofName? (name : String) : Option Builtin := all.find? (·.name == name)

/-- The function of a name in any mixture of ASCII capitals and small letters. -/
def ofAnyCase? (name : String) : Option Builtin := ofName? name.toLower

end Builtin

end QueryAlgebra.Surface
