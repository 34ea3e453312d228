/-! main.c: which board this is, by its factory UID, and its short address. -/
namespace Fresknode.Identity

inductive RangerRole where
  | undefined
  | anchor0
  | anchor1
  | anchor2
  | anchor3
  | node1
  | node2
  | node3
  deriving DecidableEq, Repr

def getRole (id : UInt64) : RangerRole :=
  if id = 0xffff0c0412000ba3 then .anchor0
  else if id = 0xffff34fc11000ba3 then .anchor1
  else if id = 0xffff4cee11000ba3 then .anchor2
  else if id = 0xffff5ffc11000ba3 then .anchor3
  else if id = 0xffff120b12000ba3 then .node1
  else if id = 0 then .node2
  else if id = 0xffff110812000ba3 then .node2
  else if id = 0xffffe7bc553980d8 then .node2
  else .undefined

def ieeshortaddr : RangerRole → UInt16
  | .anchor0 => 0
  | .anchor1 => 1
  | .anchor2 => 2
  | .anchor3 => 3
  | .node1 => 4
  | .node2 => 5
  | _ => 6

end Fresknode.Identity
