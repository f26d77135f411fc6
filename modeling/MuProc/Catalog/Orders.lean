import MuProc.Catalog.Spec
import MuProc.Formula.Ctl

/-!
# Orders

The life of a single order. Cancelling and losing a parcel can happen, but nobody
is obliged to do either. Every lost parcel is delivered again by a nested
delivery, so the call stack grows with every loss.
-/

namespace MuProc.Catalog

/-- Placing, reviewing, delivering and settling an order. -/
def ordersModel : Model :=
  .ofDefinitions "orders" "Order" [
    { name := "Order", props := ["new"],
      rules := [[.act "place" .must, .run "Review", .act "settle" .must]] },
    { name := "Review", props := ["review"],
      rules := [[.act "accept" .must, .run "Deliver"], [.act "cancel" .may, .run "Cancelled"]] },
    { name := "Deliver", props := ["accepted"],
      rules := [[.act "ship" .must, .run "Delivered"], [.act "lose" .may, .run "Deliver"]] },
    { name := "Delivered", props := ["delivered"], rules := [[.act "sign" .must]] },
    { name := "Cancelled", props := ["cancelled"], rules := [[.act "refund" .must]] }]

def ordersProperties : List Property :=
  let accepted := Formula.atom "accepted"
  let delivered := Formula.atom "delivered"
  let cancelled := Formula.atom "cancelled"
  [ { name := "AG(accepted -> AF(delivered | cancelled))"
      description := "Every accepted order is eventually delivered or cancelled."
      formula := .ag (.implies accepted (.af (.or delivered cancelled)))
      expect := some true },
    { name := "AG !(delivered & cancelled)"
      description := "No order is both delivered and cancelled."
      formula := .ag (.not (.and delivered cancelled))
      expect := some true },
    { name := "EF delivered"
      description := "Delivery is possible."
      formula := .ef delivered
      expect := some true },
    { name := "EF cancelled"
      description := "Cancellation is possible."
      formula := .ef cancelled
      expect := some true },
    { name := "AG !cancelled"
      description := "No required step leads to a cancellation."
      formula := .ag (.not cancelled)
      expect := some true },
    { name := "AF <settle>true"
      description := "Following required steps, every order reaches settlement."
      formula := .af (.can "settle")
      expect := some true },
    { name := "EG !delivered"
      description := "A parcel can be lost forever."
      formula := .eg (.not delivered)
      expect := some true },
    { name := "<place><accept><ship><sign><settle>[]false"
      description := "Signing for a parcel returns to the order, which settles and stops."
      formula := .after ["place", "accept", "ship", "sign", "settle"] .stopped
      expect := some true } ]

def orders : Spec where
  description :=
    "An order is placed, reviewed and then either accepted and shipped, or\n" ++
    "cancelled. A courier may lose the parcel, in which case delivery starts\n" ++
    "over. Every order is settled once review has finished."
  model := ordersModel
  properties := ordersProperties

end MuProc.Catalog
