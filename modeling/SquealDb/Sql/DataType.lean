import Mathlib.Data.List.Basic

/-!
# Column types

`DataType` of `datatype.rs`.
-/

namespace SquealDb.Sql

inductive DataType where
  | integer | double | datetime
  | str (n : UInt32)
  | blob (n : UInt32)
  | null | unsupported | boolean
  deriving DecidableEq, Repr

end SquealDb.Sql
