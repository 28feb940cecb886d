import QueryExpr.Schema.Basic

/-!
# A small shop

A schema with two models, orders and customers, that has a relationship of each kind an expression
can use and one that it cannot. The line checker compiles against it.
-/

namespace QueryExpr.Schema

/-- An order belongs to a customer, has an invoice and line items, and carries labels. -/
def shopOrder : Model :=
  Model.ofTable "orders"
    |>.withAttributes ["id", "total", "status", "note", "created_at"]
    |>.withRelationship
      { name := "customer", kind := .belongsTo, targetTable := "customers",
        foreignKey := "customer_id" }
    |>.withRelationship
      { name := "invoice", kind := .hasOne, targetTable := "invoices", foreignKey := "order_id" }
    |>.withRelationship
      { name := "items", kind := .hasMany, targetTable := "line_items", foreignKey := "order_id" }
    |>.withRelationship
      { name := "labels", kind := .through, targetTable := "labels", foreignKey := "order_id" }

/-- A customer has orders. -/
def shopCustomer : Model :=
  Model.ofTable "customers"
    |>.withAttributes ["id", "name", "email"]
    |>.withRelationship
      { name := "orders", kind := .hasMany, targetTable := "orders", foreignKey := "customer_id" }

/-- Orders and customers. -/
def shop : Schema :=
  Schema.empty.insert "Order" shopOrder |>.insert "Customer" shopCustomer

end QueryExpr.Schema
